import KiteSQL.Errors

/-! The byte encodings of values whose lexicographic order is used for keys. -/
namespace KiteSQL

open Endian ByteReader

abbrev Bytes := List UInt8

def readU8 : Reader UInt8 := readByte unexpectedEof

/-- `decode_u!`: a big-endian word of `n` bytes. -/
def decodeU (n : Nat) : Reader Nat := readBe unexpectedEof n

def encodeGroupSize : Nat := 8

def encodeMarker : UInt8 := 0xFF

/-- Groups of eight bytes, each followed by a marker; the last group is padded with zeros. -/
def encodeString (data : Bytes) : Bytes :=
  if encodeGroupSize ≤ data.length then
    data.take encodeGroupSize ++ encodeMarker :: encodeString (data.drop encodeGroupSize)
  else
    let padCount := encodeGroupSize - data.length
    data ++ List.replicate padCount 0 ++ [encodeMarker - UInt8.ofNat padCount]
termination_by data.length
decreasing_by simp_all [encodeGroupSize]; omega

/-- Reads groups until one is padded; the input shrinks with every group. -/
def decodeString : Reader Bytes := fun s =>
  if s.length < encodeGroupSize + 1 then .error unexpectedEof
  else
    let group := s.take encodeGroupSize
    let marker := (s.drop encodeGroupSize).headD 0
    let rest := s.drop (encodeGroupSize + 1)
    let padCount := (encodeMarker - marker).toNat
    if encodeGroupSize < padCount then
      .error (.error (.io "memcomparable string marker out of range"))
    else
      let data := group.take (encodeGroupSize - padCount)
      if padCount ≠ 0 then .ok (data, rest)
      else do
        let (more, rest) ← decodeString rest
        return (data ++ more, rest)
termination_by s => s.length
decreasing_by simp_all [encodeGroupSize]; omega

/-- Arithmetic of a fixed-width signed type, which panics when it leaves the width. -/
def checked (bits : Nat) (op : String) (x : Int) : Result Int :=
  if -2 ^ (bits - 1) ≤ x ∧ x < 2 ^ (bits - 1) then .ok x
  else .error (.panic s!"attempt to {op} with overflow")

/-- The powers of ten from `10 ^ 0` to `10 ^ 29`. -/
def pow10 : List Nat := (List.range 30).map (10 ^ ·)

/-- `partition_point` over the powers of ten: how many of them are at most the mantissa. -/
def precision (mantissa : Nat) : Nat := pow10.findIdx (mantissa < ·)

def removeTrailingZeros (mantissa digitNum : Nat) : Nat × Nat :=
  if mantissa % 10 = 0 ∧ mantissa ≠ 0 then removeTrailingZeros (mantissa / 10) (digitNum - 1)
  else (mantissa, digitNum)
termination_by mantissa

def digitByte (mantissa : Nat) : UInt8 := UInt8.ofNat (mantissa % 100) * 2 + 1

/-- The digits of a mantissa while it does not fit 64 bits, the lowest first. -/
def pushWideDigits (mantissa : Nat) (byteArray : Bytes) : Nat × Bytes :=
  if mantissa >>> 64 ≠ 0 then
    pushWideDigits (mantissa / 100) (byteArray ++ [digitByte mantissa])
  else (mantissa, byteArray)
termination_by mantissa
decreasing_by
  refine Nat.div_lt_self (Nat.pos_of_ne_zero ?_) (by decide)
  rintro rfl
  simp at *

def pushDigits (mantissa : Nat) (byteArray : Bytes) : Bytes :=
  if mantissa ≠ 0 then pushDigits (mantissa / 100) (byteArray ++ [digitByte mantissa])
  else byteArray
termination_by mantissa

/-- The lowest digit is marked as the last one before the digits are put in reading order. -/
def finishDigits : Bytes → Result Bytes
  | [] => .error (.panic "index out of bounds: the len is 0 but the index is 0")
  | b :: bs => .ok ((b - 1) :: bs).reverse

/-- The exponent to base 100 and the base-100 digits of a decimal. -/
def decimalEM (decimal : Decimal) : Result (Int8 × Bytes) :=
  if decimal.isZero then .ok (0, [])
  else do
    let prec := precision decimal.mantissa.natAbs
    let e10 : Int := prec - decimal.scale
    let e100 := if 0 ≤ e10 then (e10 + 1).tdiv 2 else e10.tdiv 2
    let digitNum := if e10 = 2 * e100 then prec else prec + 1
    let (mantissa, digitNum) := removeTrailingZeros decimal.mantissa.natAbs digitNum
    let mantissa := if digitNum % 2 = 1 then mantissa * 10 else mantissa
    let (mantissa, byteArray) := pushWideDigits mantissa []
    return (Int8.ofInt e100, ← finishDigits (pushDigits mantissa byteArray))

def serializeDecimal (decimal : Decimal) : Result Bytes :=
  if decimal.isZero then .ok [0x15]
  else do
    let (exponent, significand) ← decimalEM decimal
    if decimal.isSignPositive then
      let head :=
        if 11 ≤ exponent then [0x22, exponent.toUInt8]
        else if 0 ≤ exponent then [0x17 + exponent.toUInt8]
        else [0x16, (~~~(-exponent)).toUInt8]
      return head ++ significand
    else
      let head :=
        if 11 ≤ exponent then [0x8, (~~~exponent).toUInt8]
        else if 0 ≤ exponent then [0x13 - exponent.toUInt8]
        else [0x14, (-exponent).toUInt8]
      return head ++ significand.map (~~~·)

/-- The exponent that a flag byte announces, read from the next byte where it does not fit. -/
def readExponent (flag : UInt8) : Reader Int := do
  if flag = 0x08 then
    return (~~~(← readU8)).toInt8.toInt
  else if 0x09 ≤ flag ∧ flag ≤ 0x13 then
    return (0x13 - flag).toInt8.toInt
  else if flag = 0x14 then
    checked 8 "negate" (-(← readU8).toInt8.toInt)
  else if flag = 0x16 then
    checked 8 "negate" (-(~~~(← readU8).toInt8).toInt)
  else if 0x17 ≤ flag ∧ flag ≤ 0x21 then
    return (flag - 0x17).toInt8.toInt
  else if flag = 0x22 then
    return (← readU8).toInt8.toInt
  else
    throw (.error (.invalidValue s!"invalid decimal exponent: {flag}"))

/-- Reads digits up to the one marked as the last. -/
def readMantissa (neg : Bool) (mantissa mlen : Int) : Bytes → Result ((Int × Int) × Bytes)
  | [] => .error unexpectedEof
  | c :: s => do
    let b := if neg then ~~~c else c
    let scaled ← checked 128 "multiply" (mantissa * 100)
    let mantissa ← checked 128 "add" (scaled + (b / 2).toNat)
    let mlen ← checked 8 "add" (mlen + 1)
    if b &&& 1 = 0 then return ((mantissa, mlen), s)
    else readMantissa neg mantissa mlen s

def scaleUp : Nat → Int → Result Int
  | 0, mantissa => .ok mantissa
  | n + 1, mantissa => do
    let mantissa ← checked 128 "multiply" (mantissa * 10)
    scaleUp n mantissa

/-- The scale of a number with the given base-100 exponent and digit count. -/
def normalizeScale (mantissa mlen exponent : Int) : Result (Int × Nat) := do
  let diff ← checked 8 "subtract" (mlen - exponent)
  let scale ← checked 8 "multiply" (diff * 2)
  if scale ≤ 0 then
    let count ← checked 8 "negate" (-scale)
    return (← scaleUp count.toNat mantissa, 0)
  else if mantissa % 10 = 0 then return (mantissa / 10, scale.toNat - 1)
  else return (mantissa, scale.toNat)

def fromI128WithScale (num : Int) (scale : Nat) : Result Decimal :=
  match Decimal.tryFromI128WithScale num scale with
  | some d => .ok d
  | none => .error (.panic "decimal mantissa or scale out of range")

/-- The mantissa with the sign that the flag byte announced. -/
def signedMantissa (neg : Bool) (mantissa : Int) : Result Int :=
  if neg then checked 128 "negate" (-mantissa) else .ok mantissa

def deserializeDecimal : Reader Decimal := do
  let flag ← readU8
  if flag = 0x15 then return Decimal.zero
  else
    let exponent ← readExponent flag
    let neg := decide (0x07 ≤ flag ∧ flag < 0x15)
    let (mantissa, mlen) ← readMantissa neg 0 0
    let (mantissa, scale) ← normalizeScale mantissa mlen exponent
    let mantissa ← signedMantissa neg mantissa
    fromI128WithScale mantissa scale

namespace DataValue

def nullTag : UInt8 := 0x1

def notNullTag : UInt8 := 0x0

/-- The tag of a NULL, or the other tag before the encoding of the value itself. -/
def tagged (nullsFirst : Bool) (value : DataValue) (body : Result Bytes) : Result Bytes := do
  let (nullTag, notNullTag) := if nullsFirst then (notNullTag, nullTag) else (nullTag, notNullTag)
  if value.isNull then return [nullTag]
  return notNullTag :: (← body)

/-- The bit pattern written for a 32-bit float. -/
def float32Key (u : UInt32) : UInt32 :=
  if FloatBits.binary32.geZero u.toNat then u ||| 0x80000000 else ~~~u

def float64Key (u : UInt64) : UInt64 :=
  if FloatBits.binary64.geZero u.toNat then u ||| 0x8000000000000000 else ~~~u

mutual

/-- What follows the tag of a value that is not NULL. -/
def memcomparableBody : DataValue → Result Bytes
  | .parameter _ _ =>
    .error (.error (.invalidValue "unbound parameter reached storage encoding"))
  | .null => .ok []
  | .int8 v => .ok (toBeBytes 1 (v.toUInt8 ^^^ 0x80).toNat)
  | .int16 v => .ok (toBeBytes 2 (v.toUInt16 ^^^ 0x8000).toNat)
  | .int32 v => .ok (toBeBytes 4 (v.toUInt32 ^^^ 0x80000000).toNat)
  | .date32 v => .ok (toBeBytes 4 (v.toUInt32 ^^^ 0x80000000).toNat)
  | .int64 v => .ok (toBeBytes 8 (v.toUInt64 ^^^ 0x8000000000000000).toNat)
  | .date64 v => .ok (toBeBytes 8 (v.toUInt64 ^^^ 0x8000000000000000).toNat)
  | .time64 v _ _ => .ok (toBeBytes 8 (v.toUInt64 ^^^ 0x8000000000000000).toNat)
  | .uInt8 v => .ok (toBeBytes 1 v.toNat)
  | .uInt16 v => .ok (toBeBytes 2 v.toNat)
  | .uInt32 v => .ok (toBeBytes 4 v.toNat)
  | .time32 v _ => .ok (toBeBytes 4 v.toNat)
  | .uInt64 v => .ok (toBeBytes 8 v.toNat)
  | .utf8 v _ _ => .ok (encodeString (asBytes v))
  | .boolean v => .ok [if v then 0x31 else 0x30]
  | .float32 u => .ok (toBeBytes 4 (float32Key u).toNat)
  | .float64 u => .ok (toBeBytes 8 (float64Key u).toNat)
  | .decimal v => serializeDecimal v
  | .tuple values => memcomparableEncodeAll values

def memcomparableEncodeAll : List DataValue → Result Bytes
  | [] => .ok []
  | v :: vs => do
    let b ← tagged false v (memcomparableBody v)
    return b ++ (← memcomparableEncodeAll vs)

end

def memcomparableEncodeWithNullOrder (value : DataValue) (nullsFirst : Bool) : Result Bytes :=
  tagged nullsFirst value (memcomparableBody value)

def memcomparableEncode (value : DataValue) : Result Bytes :=
  memcomparableEncodeWithNullOrder value false

/-- The bit pattern read back from the key of a 32-bit float. -/
def float32OfKey (u : UInt32) : UInt32 :=
  if u &&& 0x80000000 ≠ 0 then u &&& ~~~0x80000000 else ~~~u

def float64OfKey (u : UInt64) : UInt64 :=
  if u &&& 0x8000000000000000 ≠ 0 then u &&& ~~~0x8000000000000000 else ~~~u

/-- The string body shared by the two string types. -/
def decodeUtf8 (ty : Utf8Type) (unit : CharLengthUnits) : Reader DataValue := do
  let bytes ← decodeString
  return .utf8 (← fromUtf8 bytes) ty unit

/-- Reads the tag, and the rest of the value unless the tag says NULL. -/
def untag (body : Reader DataValue) : Reader DataValue := do
  if (← readU8) = nullTag then return .null
  else body

mutual

/-- What follows a tag that does not say NULL. -/
def memcomparableDecodeBody : LogicalType → Reader DataValue
  | .sqlNull => return .null
  | .tinyint => return .int8 (UInt8.ofNat (← decodeU 1) ^^^ 0x80).toInt8
  | .smallint => return .int16 (UInt16.ofNat (← decodeU 2) ^^^ 0x8000).toInt16
  | .integer => return .int32 (UInt32.ofNat (← decodeU 4) ^^^ 0x80000000).toInt32
  | .date => return .date32 (UInt32.ofNat (← decodeU 4) ^^^ 0x80000000).toInt32
  | .time precision => return .time32 (UInt32.ofNat (← decodeU 4)) (precision.getD 0)
  | .bigint => return .int64 (UInt64.ofNat (← decodeU 8) ^^^ 0x8000000000000000).toInt64
  | .dateTime => return .date64 (UInt64.ofNat (← decodeU 8) ^^^ 0x8000000000000000).toInt64
  | .timeStamp precision zone => do
    let v := (UInt64.ofNat (← decodeU 8) ^^^ 0x8000000000000000).toInt64
    return .time64 v (precision.getD 0) zone
  | .uTinyint => return .uInt8 (UInt8.ofNat (← decodeU 1))
  | .uSmallint => return .uInt16 (UInt16.ofNat (← decodeU 2))
  | .uInteger => return .uInt32 (UInt32.ofNat (← decodeU 4))
  | .uBigint => return .uInt64 (UInt64.ofNat (← decodeU 8))
  | .float => return .float32 (float32OfKey (UInt32.ofNat (← decodeU 4)))
  | .double => return .float64 (float64OfKey (UInt64.ofNat (← decodeU 8)))
  | .boolean => return .boolean ((← readU8) = 0x31)
  | .varchar len unit => decodeUtf8 (.variable len) unit
  | .char len unit => decodeUtf8 (.fixed len) unit
  | .decimal _ _ => return .decimal (← deserializeDecimal)
  | .tuple types => return .tuple (← memcomparableDecodeAll types)

def memcomparableDecodeAll : List LogicalType → Reader (List DataValue)
  | [] => return []
  | ty :: tys => do
    let v ← untag (memcomparableDecodeBody ty)
    return v :: (← memcomparableDecodeAll tys)

end

def memcomparableDecode (ty : LogicalType) : Reader DataValue := untag (memcomparableDecodeBody ty)

end DataValue

end KiteSQL
