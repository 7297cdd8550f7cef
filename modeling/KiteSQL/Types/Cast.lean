import KiteSQL.Types.Serialize
import KiteSQL.Types.Time

/-! Casting a value to the type of a column. -/
namespace KiteSQL

open Result

/-- What casts leave to other libraries: reading floats, decimals and times from a text, the text of
a value, and conversions between types that are not texts. -/
class Conversions where
  parseFloat32 : String → Result UInt32
  parseFloat64 : String → Result UInt64
  parseDecimal : String → Result Decimal
  parseDate : String → Result Int32
  parseDateTime : String → Result Int64
  /-- Seconds from midnight and the nanoseconds after them. -/
  parseTime : String → UInt64 → Result (UInt32 × UInt32)
  parseTimestamp : String → UInt64 → Bool → Result Int64
  display : DataValue → Result String
  convert : DataValue → LogicalType → Result DataValue

/-- Conversions that refuse everything. -/
@[reducible] def Conversions.refusing : Conversions where
  parseFloat32 _ := .error (.error .invalidType)
  parseFloat64 _ := .error (.error .invalidType)
  parseDecimal _ := .error (.error .invalidType)
  parseDate _ := .error (.error .invalidType)
  parseDateTime _ := .error (.error .invalidType)
  parseTime _ _ := .error (.error .invalidType)
  parseTimestamp _ _ _ := .error (.error .invalidType)
  display _ := .error (.error .invalidType)
  convert _ _ := .error (.error .invalidType)

namespace DataValue

/-- The number that a list of decimal digits stands for. -/
def digitsValue (digits : List Char) : Option Nat :=
  if !digits.isEmpty && digits.all Char.isDigit then
    some (digits.foldl (fun n digit => n * 10 + (digit.toNat - '0'.toNat)) 0)
  else none

/-- `from_str` of an integer type with the given bounds. -/
def parseInteger (min max : Int) (text : String) : Result Int :=
  let number : Option Int := match text.toList with
    | '+' :: digits => (digitsValue digits).map Int.ofNat
    | '-' :: digits => if min < 0 then (digitsValue digits).map fun n => -Int.ofNat n else none
    | digits => (digitsValue digits).map Int.ofNat
  match number with
  | some n => if min ≤ n ∧ n ≤ max then .ok n else .error (.error .parseInt)
  | none => .error (.error .parseInt)

def parseBool (text : String) : Result Bool :=
  if text = "true" then .ok true
  else if text = "false" then .ok false
  else .error (.error .parseBool)

def toChar (value : String) (len : UInt32) (unit : CharLengthUnits) : Result DataValue :=
  if checkStringLen value len.toNat unit then .error (.error .tooLong)
  else .ok (.utf8 value (.fixed len) unit)

def toVarchar (value : String) (len : Option UInt32) (unit : CharLengthUnits) :
    Result DataValue :=
  if len.any fun len => checkStringLen value len.toNat unit then .error (.error .tooLong)
  else .ok (.utf8 value (.variable len) unit)

variable [Conversions]

/-- The evaluators that read a text. -/
def parseText (source : LogicalType) (value : String) : LogicalType → Result DataValue
  | .boolean => return .boolean (← parseBool value)
  | .tinyint => return .int8 (Int8.ofInt (← parseInteger (-2 ^ 7) (2 ^ 7 - 1) value))
  | .uTinyint => return .uInt8 (UInt8.ofInt (← parseInteger 0 (2 ^ 8 - 1) value))
  | .smallint => return .int16 (Int16.ofInt (← parseInteger (-2 ^ 15) (2 ^ 15 - 1) value))
  | .uSmallint => return .uInt16 (UInt16.ofInt (← parseInteger 0 (2 ^ 16 - 1) value))
  | .integer => return .int32 (Int32.ofInt (← parseInteger (-2 ^ 31) (2 ^ 31 - 1) value))
  | .uInteger => return .uInt32 (UInt32.ofInt (← parseInteger 0 (2 ^ 32 - 1) value))
  | .bigint => return .int64 (Int64.ofInt (← parseInteger (-2 ^ 63) (2 ^ 63 - 1) value))
  | .uBigint => return .uInt64 (UInt64.ofInt (← parseInteger 0 (2 ^ 64 - 1) value))
  | .float => return .float32 (← Conversions.parseFloat32 value)
  | .double => return .float64 (← Conversions.parseFloat64 value)
  | .char len unit => toChar value len unit
  | .varchar len unit => toVarchar value len unit
  | .date => return .date32 (← Conversions.parseDate value)
  | .dateTime => return .date64 (← Conversions.parseDateTime value)
  | .time precision => do
    let precision := precision.getD 0
    let (secs, nano) ← Conversions.parseTime value precision
    return .time32 (← packTime secs (if precision = 0 then 0 else nano) precision) precision
  | .timeStamp precision zone => do
    let precision := precision.getD 0
    return .time64 (← Conversions.parseTimestamp value precision zone) precision zone
  | .decimal _ _ => return .decimal (← Conversions.parseDecimal value)
  | .sqlNull => .ok .null
  | .tuple types => .error (.error (.castFail source (.tuple types)))

/-- `cast_create` and the evaluator it chooses. -/
def evalCast (value : DataValue) (target : LogicalType) : Result DataValue :=
  match value, target with
  | _, .sqlNull => .ok .null
  | .utf8 text ty unit, target => parseText (logicalType (.utf8 text ty unit)) text target
  | .tuple values, .char len unit =>
    .error (.error (.castFail (.tuple (logicalTypes values)) (.char len unit)))
  | .tuple values, .varchar len unit =>
    .error (.error (.castFail (.tuple (logicalTypes values)) (.varchar len unit)))
  | value, .char len unit => do toChar (← Conversions.display value) len unit
  | value, .varchar len unit => do toVarchar (← Conversions.display value) len unit
  | value, target => Conversions.convert value target

def cast (value : DataValue) (target : LogicalType) : Result DataValue :=
  if value.logicalType = target then .ok value
  else
    match value, target with
    | .parameter id _, target => .ok (.parameter id target)
    | .null, _ => .ok .null
    | .utf8 value _ _, .char len unit => toChar value len unit
    | .utf8 value _ _, .varchar len unit => toVarchar value len unit
    | value, target => evalCast value target

variable {v w : DataValue} {t : LogicalType} {value : String} {len : UInt32}
  {unit : CharLengthUnits}

omit [Conversions] in
theorem toChar_eq_ok (h : toChar value len unit = .ok w) :
    w = .utf8 value (.fixed len) unit ∧ checkStringLen value len.toNat unit = false := by
  unfold toChar at h
  split at h
  · cases h
  · cases h
    simp_all

omit [Conversions] in
theorem toVarchar_eq_ok {len : Option UInt32} (h : toVarchar value len unit = .ok w) :
    w = .utf8 value (.variable len) unit ∧
      ∀ n, len = some n → checkStringLen value n.toNat unit = false := by
  unfold toVarchar at h
  split at h
  · cases h
  · next hn =>
    cases h
    refine ⟨rfl, ?_⟩
    rintro n rfl
    simpa using hn

/-- A text cast to a CHAR type carries the length and unit of that type. -/
theorem cast_declaresChar (h : v.cast t = .ok w) : w.declaresChar t := by
  cases t with
  | char len unit =>
    cases v with
    | parameter id ty =>
      rw [cast] at h
      split at h <;> cases h <;> trivial
    | null =>
      rw [cast] at h
      split at h <;> cases h <;> trivial
    | utf8 value ty u =>
      rw [cast] at h
      split at h
      · next he =>
        cases h
        cases ty <;> simp_all [logicalType, declaresChar]
      · obtain ⟨rfl, -⟩ := toChar_eq_ok h
        exact ⟨rfl, rfl⟩
    | tuple vs =>
      unfold cast at h
      rw [if_neg (by simp [logicalType])] at h
      cases h
    | _ =>
      unfold cast at h
      rw [if_neg (by simp [logicalType])] at h
      obtain ⟨value, -, h⟩ := bind_eq_ok.mp h
      obtain ⟨rfl, -⟩ := toChar_eq_ok h
      exact ⟨rfl, rfl⟩
  | _ => cases w <;> trivial

/-- Reading a text gives no NULL, and a text that passes the length check. -/
theorem parseText_spec {source : LogicalType} (h : parseText source value t = .ok w)
    (ht : t ≠ .sqlNull) : w.isNull = false ∧
      ((∀ p s, t ≠ .decimal p s) → w.checkLen t = .ok ()) := by
  cases t with
  | sqlNull => exact absurd rfl ht
  | tuple => cases h
  | char len unit =>
    obtain ⟨rfl, hl⟩ := toChar_eq_ok h
    refine ⟨rfl, fun _ => ?_⟩
    cases unit <;> simp [checkLen, isOverLen, hl]
  | varchar len unit =>
    obtain ⟨rfl, hl⟩ := toVarchar_eq_ok h
    refine ⟨rfl, fun _ => ?_⟩
    cases len with
    | none => cases unit <;> rfl
    | some n => cases unit <;> simp [checkLen, isOverLen, hl n rfl]
  | decimal p s =>
    obtain ⟨d, -, h⟩ := bind_eq_ok.mp h
    cases h
    exact ⟨rfl, fun hd => absurd rfl (hd p s)⟩
  | time p =>
    obtain ⟨⟨secs, nano⟩, -, h⟩ := bind_eq_ok.mp h
    obtain ⟨u, -, h⟩ := bind_eq_ok.mp h
    cases h
    exact ⟨rfl, fun _ => rfl⟩
  | _ =>
    obtain ⟨x, -, h⟩ := bind_eq_ok.mp h
    cases h
    exact ⟨rfl, fun _ => rfl⟩

/-- What a text is read as declares the type it was read for. -/
theorem parseText_retype {source : LogicalType} (h : parseText source value t = .ok w) :
    w.retype t = w := by
  cases t with
  | sqlNull =>
    cases h
    rfl
  | tuple => cases h
  | char len unit =>
    obtain ⟨rfl, -⟩ := toChar_eq_ok h
    rfl
  | varchar len unit =>
    obtain ⟨rfl, -⟩ := toVarchar_eq_ok h
    rfl
  | time p =>
    obtain ⟨⟨secs, nano⟩, -, h⟩ := bind_eq_ok.mp h
    obtain ⟨u, -, h⟩ := bind_eq_ok.mp h
    cases h
    rfl
  | _ =>
    obtain ⟨x, -, h⟩ := bind_eq_ok.mp h
    cases h
    rfl

/-- Casting a text of no fixed length is reading it. -/
theorem cast_text (value : String) (t : LogicalType) :
    (DataValue.utf8 value (.variable none) .characters).cast t =
      parseText (.varchar none .characters) value t := by
  unfold cast
  split
  · next he =>
    cases he
    rfl
  · cases t <;> rfl

end DataValue

end KiteSQL
