import KiteSQL.Errors

/-! The type in which values of two types are compared. -/
namespace KiteSQL.LogicalType

def isNumeric : LogicalType → Bool
  | .tinyint | .uTinyint | .smallint | .uSmallint | .integer | .uInteger | .bigint | .uBigint
  | .float | .double | .decimal _ _ => true
  | _ => false

def isSignedNumeric : LogicalType → Bool
  | .tinyint | .smallint | .integer | .bigint => true
  | _ => false

def isUnsignedNumeric : LogicalType → Bool
  | .uTinyint | .uSmallint | .uInteger | .uBigint => true
  | _ => false

def isFloatOrDecimal : LogicalType → Bool
  | .float | .double | .decimal _ _ => true
  | _ => false

def isText : LogicalType → Bool
  | .char _ _ | .varchar _ _ => true
  | _ => false

def canImplicitCast (source target : LogicalType) : Bool :=
  if source = target then true
  else
    match source, target with
    | .sqlNull, _ => true
    | .tinyint, .smallint | .tinyint, .integer | .tinyint, .bigint => true
    | .tinyint, target => target.isFloatOrDecimal
    | .uTinyint, .uSmallint | .uTinyint, .uInteger | .uTinyint, .uBigint | .uTinyint, .smallint
    | .uTinyint, .integer | .uTinyint, .bigint => true
    | .uTinyint, target => target.isFloatOrDecimal
    | .smallint, .integer | .smallint, .bigint => true
    | .smallint, target => target.isFloatOrDecimal
    | .uSmallint, .uInteger | .uSmallint, .uBigint | .uSmallint, .integer
    | .uSmallint, .bigint => true
    | .uSmallint, target => target.isFloatOrDecimal
    | .integer, .bigint => true
    | .integer, target => target.isFloatOrDecimal
    | .uInteger, .uBigint | .uInteger, .bigint => true
    | .uInteger, target => target.isFloatOrDecimal
    | .bigint, target | .uBigint, target => target.isFloatOrDecimal
    | .float, .double | .float, .decimal _ _ => true
    | .double, .decimal _ _ => true
    | .date, .dateTime => true
    | .date, target => target.isText
    | .dateTime, .date | .timeStamp _ _, .date | .dateTime, .time _ | .timeStamp _ _, .time _ =>
      true
    | .dateTime, target | .timeStamp _ _, target | .time _, target => target.isText
    | _, _ => false

/-- The larger of two numbers of digits, of which one may be absent. -/
def maxDigits : Option UInt8 → Option UInt8 → Option UInt8
  | some m, some n => some (max m n)
  | some m, none => some m
  | none, n => n

/-- `combine_numeric_types` after its two sides have been arranged. -/
def combineArranged (left right : LogicalType) : Result LogicalType :=
  if canImplicitCast left right then .ok right
  else if canImplicitCast right left then .ok left
  else
    match left, right with
    | .bigint, _ | _, .uBigint => .ok .double
    | .integer, _ | _, .uInteger => .ok .bigint
    | .smallint, _ | _, .uSmallint => .ok .integer
    | .tinyint, _ | _, .uTinyint => .ok .smallint
    | .decimal p s, .decimal p' s' => .ok (.decimal (maxDigits p p') (maxDigits s s'))
    | left, right => .error (.error (.incomparable left right))

def combineNumericTypes (left right : LogicalType) : Result LogicalType :=
  if left = right then .ok left
  else if left.isSignedNumeric && right.isUnsignedNumeric then combineArranged right left
  else combineArranged left right

def maxLogicalType (left right : LogicalType) : Result LogicalType :=
  if left = right then .ok left
  else
    match left, right with
    | .sqlNull, right => .ok right
    | left, .sqlNull => .ok left
    | .tuple types0, .tuple types1 =>
      if types0.length > types1.length then .ok (.tuple types0) else .ok (.tuple types1)
    | left, right =>
      if left.isNumeric && right.isNumeric then combineNumericTypes left right
      else
        match left, right with
        | .date, .varchar _ _ | .varchar _ _, .date => .ok .date
        | .date, .dateTime | .dateTime, .date => .ok .dateTime
        | .dateTime, .varchar _ _ | .varchar _ _, .dateTime => .ok .dateTime
        | left, right =>
          if left.isText && right.isText then .ok (.varchar none .characters)
          else .error (.error (.incomparable left right))

end KiteSQL.LogicalType
