import KiteSQL.Types.Evaluator.LikeMatch
import KiteSQL.Types.Evaluator.Numeric
import KiteSQL.Types.Time

/-! The evaluators of binary operators on texts, truth values, times and tuples. -/
namespace KiteSQL

def booleanAndBinaryEval : DataValue → DataValue → Result DataValue
  | .boolean a, .boolean b => .ok (.boolean (a && b))
  | .boolean false, .null | .null, .boolean false => .ok (.boolean false)
  | .null, .null | .boolean true, .null | .null, .boolean true => .ok .null
  | _, _ => .error .undefinedBehavior

def booleanOrBinaryEval : DataValue → DataValue → Result DataValue
  | .boolean a, .boolean b => .ok (.boolean (a || b))
  | .boolean true, .null | .null, .boolean true => .ok (.boolean true)
  | .null, .null | .boolean false, .null | .null, .boolean false => .ok .null
  | _, _ => .error .undefinedBehavior

def DataValue.boolean? : DataValue → Option Bool
  | .boolean v => some v
  | _ => none

def booleanEqBinaryEval : BinaryEvaluator :=
  nullableBinary DataValue.boolean? fun v1 v2 => .ok (.boolean (v1 == v2))

def booleanNotEqBinaryEval : BinaryEvaluator :=
  nullableBinary DataValue.boolean? fun v1 v2 => .ok (.boolean (v1 != v2))

/-- Texts are compared by their bytes. -/
def utf8OrderBinary (isOrder : Ordering → Bool) : BinaryEvaluator :=
  orderBinary DataValue.utf8? (fun v1 v2 => compare (asBytes v1) (asBytes v2)) isOrder

def utf8GtBinaryEval : BinaryEvaluator := utf8OrderBinary Ordering.isGT

def utf8GtEqBinaryEval : BinaryEvaluator := utf8OrderBinary Ordering.isGE

def utf8LtBinaryEval : BinaryEvaluator := utf8OrderBinary Ordering.isLT

def utf8LtEqBinaryEval : BinaryEvaluator := utf8OrderBinary Ordering.isLE

def utf8EqBinaryEval : BinaryEvaluator := utf8OrderBinary Ordering.isEq

def utf8NotEqBinaryEval : BinaryEvaluator := utf8OrderBinary Ordering.isNe

def utf8StringConcatBinaryEval : BinaryEvaluator :=
  nullableBinary DataValue.utf8? fun v1 v2 => .ok (.utf8 (v1 ++ v2) (.variable none) .characters)

def utf8LikeBinaryEval (escapeChar : Option Char) : BinaryEvaluator :=
  nullableBinary DataValue.utf8? fun value pattern =>
    .ok (.boolean (stringLike value pattern escapeChar))

def utf8NotLikeBinaryEval (escapeChar : Option Char) : BinaryEvaluator :=
  nullableBinary DataValue.utf8? fun value pattern =>
    .ok (.boolean (!stringLike value pattern escapeChar))

def nullBinaryEval : BinaryEvaluator := fun _ _ => .ok .null

namespace DataValue

def time32? : DataValue → Option (UInt32 × UInt64)
  | .time32 v p => some (v, p)
  | _ => none

/-- A sum of seconds, which overflows past 32 bits. -/
def addSecs (a b : UInt32) : Result UInt32 :=
  if a + b < a then .error (.panic "attempt to add with overflow") else .ok (a + b)

def subSecs (a b : UInt32) : Result UInt32 :=
  if a < b then .error (.panic "attempt to subtract with overflow") else .ok (a - b)

theorem oneSecToNano_toNat : oneSecToNano.toNat = 1000000000 := by
  simp [oneSecToNano]

/-- Whole seconds in a fraction go to the seconds. -/
def carrySecs (secs nanos : UInt32) : Result (UInt32 × UInt32) :=
  if oneSecToNano < nanos then do
    carrySecs (← addSecs secs 1) (nanos - oneSecToNano)
  else .ok (secs, nanos)
termination_by nanos.toNat
decreasing_by
  rename_i h _
  have hlt := UInt32.lt_iff_toNat_lt.mp h
  rw [UInt32.toNat_sub_of_le _ _ (UInt32.le_of_lt h)]
  have := oneSecToNano_toNat
  omega

theorem addSecs_toNat {a b c : UInt32} (h : addSecs a b = .ok c) : c.toNat = a.toNat + b.toNat := by
  unfold addSecs at h
  split at h
  · cases h
  · next hlt =>
    cases h
    rw [UInt32.lt_iff_toNat_lt, UInt32.toNat_add] at hlt
    have ha := a.toNat_lt
    have hb := b.toNat_lt
    rw [UInt32.toNat_add]
    omega

/-- A second becomes part of the fraction. -/
def borrowSec (secs nanos : UInt32) : Result (UInt32 × UInt32) := do
  return (← subSecs secs 1, ← addSecs nanos oneSecToNano)

theorem borrowSec_lt {secs nanos secs' nanos' : UInt32}
    (h : borrowSec secs nanos = .ok (secs', nanos')) : nanos.toNat < nanos'.toNat := by
  obtain ⟨_, _, -, hadd, h⟩ := Result.bind_bind_eq_ok.mp h
  cases h
  rw [addSecs_toNat hadd, oneSecToNano_toNat]
  omega

/-- Seconds become part of a fraction that is too small to subtract from. -/
def borrowSecs (secs nanos less : UInt32) : Result (UInt32 × UInt32) :=
  if nanos < less then
    match _h : borrowSec secs nanos with
    | .ok (secs, nanos) => borrowSecs secs nanos less
    | .error e => .error e
  else .ok (secs, nanos)
termination_by less.toNat - nanos.toNat
decreasing_by
  rename_i hlt
  have := UInt32.lt_iff_toNat_lt.mp hlt
  have := borrowSec_lt _h
  omega

def timePlusBinaryEval : BinaryEvaluator :=
  nullableBinary time32? fun (v1, p1) (v2, p2) => do
    let (v1, n1) ← unpackTime v1 p1
    let (v2, n2) ← unpackTime v2 p2
    let (v1, n) ← carrySecs v1 (← addSecs n1 n2)
    let p := if p2 > p1 then p2 else p1
    if (← addSecs v1 v2) > oneDayToSec then return .null
    else return .time32 (← packTime (v1 + v2) n p) p

def timeMinusBinaryEval : BinaryEvaluator :=
  nullableBinary time32? fun (v1, p1) (v2, p2) => do
    let (v1, n1) ← unpackTime v1 p1
    let (v2, n2) ← unpackTime v2 p2
    let (v1, n1) ← borrowSecs v1 n1 n2
    if v1 < v2 then return .null
    else
      let p := if p2 > p1 then p2 else p1
      return .time32 (← packTime (v1 - v2) (n1 - n2) p) p

def time64? : DataValue → Option (Int64 × UInt64)
  | .time64 v p _ => some (v, p)
  | _ => none

section
variable [Arithmetic]

/-- A point in time, in nanoseconds since 1970, if the calendar reaches it. -/
def fromTimestampPrecision (v : Int64) (precision : UInt64) : Result (Option Int) :=
  if precision = 0 then .ok (reached (v.toInt * 10 ^ 9))
  else if precision = 3 then .ok (reached (v.toInt * 10 ^ 6))
  else if precision = 6 then .ok (reached (v.toInt * 10 ^ 3))
  else if precision = 9 then .ok (reached v.toInt)
  else .error (.panic "internal error: entered unreachable code")
where
  reached (nanos : Int) : Option Int :=
    if Arithmetic.inCalendar (nanos / 10 ^ 9) then some nanos else none

/-- Nanoseconds that 64 bits do not hold become zero. -/
def timestampPrecision (nanos : Int) (precision : UInt64) : Result Int :=
  if precision = 3 then .ok (nanos / 10 ^ 6)
  else if precision = 6 then .ok (nanos / 10 ^ 3)
  else if precision = 9 then .ok (if -2 ^ 63 ≤ nanos ∧ nanos < 2 ^ 63 then nanos else 0)
  else if precision = 0 then .ok (nanos / 10 ^ 9)
  else .error (.panic "internal error: entered unreachable code")

def time64Binary (isOrder : Ordering → Bool) : BinaryEvaluator :=
  nullableBinary time64? fun (v1, p1) (v2, p2) => do
    let t1 ← fromTimestampPrecision v1 p1
    let t2 ← fromTimestampPrecision v2 p2
    match t1, t2 with
    | some t1, some t2 =>
      let p := if p2 > p1 then p2 else p1
      return .boolean (isOrder (compare (← timestampPrecision t1 p) (← timestampPrecision t2 p)))
    | _, _ => return .null

def time64GtBinaryEval : BinaryEvaluator := time64Binary Ordering.isGT

def time64GtEqBinaryEval : BinaryEvaluator := time64Binary Ordering.isGE

def time64LtBinaryEval : BinaryEvaluator := time64Binary Ordering.isLT

def time64LtEqBinaryEval : BinaryEvaluator := time64Binary Ordering.isLE

def time64EqBinaryEval : BinaryEvaluator := time64Binary Ordering.isEq

def time64NotEqBinaryEval : BinaryEvaluator := time64Binary Ordering.isNe

end

def tupleCmp : List DataValue → List DataValue → Option Ordering
  | v1 :: l1, v2 :: l2 =>
    match partialCmp v1 v2 with
    | none => none
    | some .eq => tupleCmp l1 l2
    | some o => some o
  | _ :: _, [] => some .gt
  | [], _ :: _ => some .lt
  | [], [] => some .eq

/-- What is expected beside two tuples is NULL with NULL or with a truth value. -/
def tupleBinary (body : List DataValue → List DataValue → DataValue) : BinaryEvaluator
  | .tuple v1, .tuple v2 => .ok (body v1 v2)
  | .null, .boolean _ | .boolean _, .null | .null, .null => .ok .null
  | _, _ => .error .undefinedBehavior

def tupleEqBinaryEval : BinaryEvaluator := tupleBinary fun v1 v2 => .boolean (eqList v1 v2)

def tupleNotEqBinaryEval : BinaryEvaluator := tupleBinary fun v1 v2 => .boolean (!eqList v1 v2)

def tupleOrderBinary (isOrder : Ordering → Bool) : BinaryEvaluator :=
  tupleBinary fun v1 v2 => ((tupleCmp v1 v2).map fun order => .boolean (isOrder order)).getD .null

def tupleGtBinaryEval : BinaryEvaluator := tupleOrderBinary Ordering.isGT

def tupleGtEqBinaryEval : BinaryEvaluator := tupleOrderBinary Ordering.isGE

def tupleLtBinaryEval : BinaryEvaluator := tupleOrderBinary Ordering.isLT

def tupleLtEqBinaryEval : BinaryEvaluator := tupleOrderBinary Ordering.isLE

end DataValue

end KiteSQL
