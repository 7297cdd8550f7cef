import KiteSQL.Serdes.DataValue
import KiteSQL.Types.Padding
import KiteSQL.Types.Typing

/-! The raw form of a column value inside a stored row. -/
namespace KiteSQL

open Endian ByteReader List

inductive TupleValueSerializableImpl where
  | boolean
  | int8
  | int16
  | int32
  | int64
  | uInt8
  | uInt16
  | uInt32
  | uInt64
  | float32
  | float64
  | char (len : UInt32) (unit : CharLengthUnits)
  | varchar (len : Option UInt32) (unit : CharLengthUnits)
  | date
  | dateTime
  | time (precision : Option UInt64)
  | timestamp (precision : Option UInt64) (zone : Bool)
  | decimal
  | skipFixed (len : Nat)
  | skipVariable
deriving DecidableEq

def writeSpaces (len : Nat) : Bytes := List.replicate len 0x20

/-- A length is cut to 32 bits when it is written. -/
def writeU32Len (len : Nat) : Bytes := toLeBytes 4 (UInt32.ofNat len).toNat

def charToRaw (value : String) (len : UInt32) (unit : CharLengthUnits) : Result Bytes :=
  let bytes := asBytes value
  match unit with
  | .characters =>
    let spacesLen := len.toNat - value.length
    .ok (writeU32Len (bytes.length + spacesLen) ++ (bytes ++ writeSpaces spacesLen))
  | .octets =>
    if len.toNat < bytes.length then .error (.panic "octets_len >= bytes.len()")
    else .ok (bytes ++ writeSpaces (len.toNat - bytes.length))

/-- Reads a text and cuts what `trim` cuts from its bytes. -/
def readText (trim : Bytes → Bytes) (ty : Utf8Type) (unit : CharLengthUnits) (len : Nat) :
    Reader DataValue := do
  let bytes ← readExact unexpectedEof len
  return .utf8 (← fromUtf8 (trim bytes)) ty unit

namespace TupleValueSerializableImpl

variable [DecimalLayout]

/-- A value of another kind than the serializer's is declared unreachable. -/
def toRaw : TupleValueSerializableImpl → DataValue → Result Bytes
  | .boolean, .boolean v => .ok [if v then 1 else 0]
  | .int8, .int8 v => .ok (toLeBytes 1 v.toUInt8.toNat)
  | .int16, .int16 v => .ok (toLeBytes 2 v.toUInt16.toNat)
  | .int32, .int32 v => .ok (toLeBytes 4 v.toUInt32.toNat)
  | .int64, .int64 v => .ok (toLeBytes 8 v.toUInt64.toNat)
  | .uInt8, .uInt8 v => .ok (toLeBytes 1 v.toNat)
  | .uInt16, .uInt16 v => .ok (toLeBytes 2 v.toNat)
  | .uInt32, .uInt32 v => .ok (toLeBytes 4 v.toNat)
  | .uInt64, .uInt64 v => .ok (toLeBytes 8 v.toNat)
  | .float32, .float32 u => .ok (toLeBytes 4 u.toNat)
  | .float64, .float64 u => .ok (toLeBytes 8 u.toNat)
  | .char _ _, .utf8 value (.fixed len) unit => charToRaw value len unit
  | .varchar _ _, .utf8 value (.variable _) _ =>
    .ok (writeU32Len (asBytes value).length ++ asBytes value)
  | .date, .date32 v => .ok (toLeBytes 4 v.toUInt32.toNat)
  | .dateTime, .date64 v => .ok (toLeBytes 8 v.toUInt64.toNat)
  | .time _, .time32 v _ => .ok (toLeBytes 4 v.toNat)
  | .timestamp _ _, .time64 v _ _ => .ok (toLeBytes 8 v.toUInt64.toNat)
  | .decimal, .decimal d => .ok (DecimalLayout.serialize d)
  | .skipFixed _, _ | .skipVariable, _ =>
    .error (.panic "internal error: entered unreachable code")
  | _, _ => .error .undefinedBehavior

def fromRaw : TupleValueSerializableImpl → Reader DataValue
  | .boolean => return .boolean (decide ((← readU8) ≠ 0))
  | .int8 => return .int8 (UInt8.ofNat (← readLeWord 1)).toInt8
  | .int16 => return .int16 (UInt16.ofNat (← readLeWord 2)).toInt16
  | .int32 => return .int32 (UInt32.ofNat (← readLeWord 4)).toInt32
  | .int64 => return .int64 (UInt64.ofNat (← readLeWord 8)).toInt64
  | .uInt8 => return .uInt8 (UInt8.ofNat (← readLeWord 1))
  | .uInt16 => return .uInt16 (UInt16.ofNat (← readLeWord 2))
  | .uInt32 => return .uInt32 (UInt32.ofNat (← readLeWord 4))
  | .uInt64 => return .uInt64 (UInt64.ofNat (← readLeWord 8))
  | .float32 => return .float32 (UInt32.ofNat (← readLeWord 4))
  | .float64 => return .float64 (UInt64.ofNat (← readLeWord 8))
  | .char len .characters => do readText trimSpaces (.fixed len) .characters (← readLeWord 4)
  | .char len .octets => readText trimSpaces (.fixed len) .octets len.toNat
  | .varchar len unit => do readText id (.variable len) unit (← readLeWord 4)
  | .date => return .date32 (UInt32.ofNat (← readLeWord 4)).toInt32
  | .dateTime => return .date64 (UInt64.ofNat (← readLeWord 8)).toInt64
  | .time precision => return .time32 (UInt32.ofNat (← readLeWord 4)) (precision.getD 0)
  | .timestamp precision zone =>
    return .time64 (UInt64.ofNat (← readLeWord 8)).toInt64 (precision.getD 0) zone
  | .decimal => return .decimal (← DecimalLayout.deserialize (← readExact unexpectedEof 16))
  | .skipFixed len => do
    seek len
    return .null
  | .skipVariable => do
    seek (← readLeWord 4)
    return .null

/-- What a deserializer appends to the row: a skipped column appends nothing. -/
def fillingValue (deserializer : TupleValueSerializableImpl) : Reader (List DataValue) := do
  let value ← deserializer.fromRaw
  match deserializer with
  | .skipFixed _ | .skipVariable => return []
  | _ => return [value]

end TupleValueSerializableImpl

open TupleValueSerializableImpl

namespace LogicalType

def rawLen : LogicalType → Result (Option Nat)
  | .sqlNull => .ok (some 0)
  | .boolean | .tinyint | .uTinyint => .ok (some 1)
  | .smallint | .uSmallint => .ok (some 2)
  | .integer | .uInteger | .float | .date | .time _ => .ok (some 4)
  | .bigint | .uBigint | .double | .dateTime | .timeStamp _ _ => .ok (some 8)
  | .varchar _ _ | .char _ .characters => .ok none
  | .char len .octets => .ok (some len.toNat)
  | .decimal _ _ => .ok (some 16)
  | .tuple _ => .error (.panic "internal error: entered unreachable code")

def skipSerializable (ty : LogicalType) : Result TupleValueSerializableImpl := do
  match ← ty.rawLen with
  | some len => return .skipFixed len
  | none => return .skipVariable

def serializable : LogicalType → Result TupleValueSerializableImpl
  | .boolean => .ok .boolean
  | .tinyint => .ok .int8
  | .uTinyint => .ok .uInt8
  | .smallint => .ok .int16
  | .uSmallint => .ok .uInt16
  | .integer => .ok .int32
  | .uInteger => .ok .uInt32
  | .bigint => .ok .int64
  | .uBigint => .ok .uInt64
  | .float => .ok .float32
  | .double => .ok .float64
  | .char len unit => .ok (.char len unit)
  | .varchar len unit => .ok (.varchar len unit)
  | .date => .ok .date
  | .dateTime => .ok .dateTime
  | .time precision => .ok (.time precision)
  | .timeStamp precision zone => .ok (.timestamp precision zone)
  | .decimal _ _ => .ok .decimal
  | .sqlNull | .tuple _ => .error (.panic "internal error: entered unreachable code")

end LogicalType

namespace DataValue

variable {v w : DataValue} {t : LogicalType} {s : TupleValueSerializableImpl} {a b : Bytes}

/-- The value belongs to the type with all that the type declares. -/
structure HasType (v : DataValue) (t : LogicalType) : Prop where
  fits : Fits v t
  declared : v.retype t = v

/-- The value without the trailing spaces that a CHAR column does not keep. -/
def stored : DataValue → LogicalType → DataValue
  | .utf8 value ty unit, .char _ _ => .utf8 (trimEnd value) ty unit
  | v, _ => v

theorem stored_stored (v : DataValue) (t : LogicalType) : (v.stored t).stored t = v.stored t := by
  cases v <;> cases t <;> simp [stored, trimEnd_trimEnd]

/-- What a column reads of a value written to it. -/
def kept (v : DataValue) (t : LogicalType) : DataValue := (v.retype t).stored t

/-- The length written in front of a text, spaces of a CHAR column included. -/
def writtenLen : DataValue → Nat
  | .utf8 value (.fixed len) .characters => (asBytes value).length + (len.toNat - value.length)
  | .utf8 value (.variable _) _ => (asBytes value).length
  | _ => 0

/-- A text in a CHAR column carries the length and the unit of the column. -/
def declaresChar : DataValue → LogicalType → Prop
  | .utf8 _ ty unit, .char len unit' => ty = .fixed len ∧ unit = unit'
  | _, _ => True

theorem HasType.kept (h : HasType v t) : v.kept t = v.stored t := by
  rw [DataValue.kept, h.declared]

theorem HasType.declaresChar (h : HasType v t) : v.declaresChar t := by
  obtain ⟨hf, hd⟩ := h
  cases hf with
  | char value ty unit =>
    simp only [retype, utf8.injEq, true_and] at hd
    exact ⟨hd.1.symm, hd.2.symm⟩
  | _ => trivial

end DataValue

open DataValue

variable {v w : DataValue} {t : LogicalType} {s : TupleValueSerializableImpl} {a b : Bytes}
  {trim : Bytes → Bytes} {ty : Utf8Type} {unit : CharLengthUnits} {value : String} {n : Nat}
  {r rest : Bytes} {k : TupleValueSerializableImpl} {len : UInt32}

theorem reads_writeU32Len_mod (n : Nat) : Reads (readLeWord 4) (writeU32Len n) (n % 2 ^ 32) := by
  rw [writeU32Len, UInt32.toNat_ofNat']
  exact reads_readLeWord (Nat.mod_lt _ (by decide))

theorem reads_writeU32Len (h : n < 2 ^ 32) : Reads (readLeWord 4) (writeU32Len n) n := by
  have hr := reads_writeU32Len_mod n
  rwa [Nat.mod_eq_of_lt h] at hr

theorem reads_readText (hn : a.length = n) (hv : trim a = asBytes value) :
    Reads (readText trim ty unit n) a (.utf8 value ty unit) := by
  refine (reads_readExact unexpectedEof hn).bind_nil ?_
  rw [hv]
  exact (reads_lift (fromUtf8_asBytes value)).bind_pure _

theorem readText_eq_ok (h : readText trim ty unit n a = .ok (w, r)) :
    ∃ value, w = .utf8 value ty unit ∧ asBytes value = trim (a.take n) := by
  unfold readText readExact at h
  rw [bind_apply] at h
  split at h
  · simp only [Except.bind, bind_apply] at h
    cases hu : fromUtf8 (trim (a.take n)) with
    | error e =>
      rw [hu] at h
      cases h
    | ok value =>
      rw [hu] at h
      cases h
      exact ⟨value, rfl, asBytes_of_fromUtf8 hu⟩
  · cases h

theorem trimSpaces_padded (value : String) (n : Nat) :
    trimSpaces (asBytes value ++ writeSpaces n) = asBytes (trimEnd value) := by
  rw [writeSpaces, trimSpaces_append_spaces, trimSpaces_asBytes]

/-- A reader that first reads a written length reads that length without its high bits. -/
theorem readCut_eq_ok
    (h : (readLeWord 4 >>= fun n => readText trim ty unit n) (writeU32Len n ++ a ++ rest) =
      .ok (w, r)) :
    ∃ value, w = .utf8 value ty unit ∧ asBytes value = trim ((a ++ rest).take (n % 2 ^ 32)) := by
  rw [bind_apply, append_assoc, reads_writeU32Len_mod] at h
  exact readText_eq_ok h

theorem length_trimSpaces_le (a : Bytes) : (trimSpaces a).length ≤ a.length :=
  (List.rdropWhile_prefix _ a).length_le

theorem charToRaw_ok
    (hc : (DataValue.utf8 value (.fixed len) unit).checkLen (.char len unit) = .ok ()) :
    ∃ b, charToRaw value len unit = .ok b := by
  cases unit with
  | characters => exact ⟨_, rfl⟩
  | octets =>
    refine ⟨_, if_neg fun h => ?_⟩
    simp [checkLen, isOverLen, checkStringLen, h] at hc

variable [DecimalLayout]

theorem reads_charToRaw (hb : charToRaw value len unit = .ok b)
    (hl : (DataValue.utf8 value (.fixed len) unit).writtenLen < 2 ^ 32) :
    Reads (char len unit).fromRaw b
      (.utf8 (trimEnd value) (.fixed len) unit) := by
  cases unit with
  | characters =>
    cases hb
    refine (reads_writeU32Len hl).bind (reads_readText ?_ (trimSpaces_padded value _))
    rw [length_append, writeSpaces, length_replicate]
    rfl
  | octets =>
    rw [charToRaw] at hb
    split at hb
    · cases hb
    · cases hb
      refine reads_readText ?_ (trimSpaces_padded value _)
      rw [length_append, writeSpaces, length_replicate]
      omega

theorem toRaw_ok (hv : HasType v t) (hn : v.isNull = false) (hc : v.checkLen t = .ok ())
    (hs : t.serializable = .ok s) : ∃ b, s.toRaw v = .ok b := by
  obtain ⟨hf, hd⟩ := hv
  cases hf with
  | null => simp [isNull] at hn
  | tupleNil | tupleCons => cases hs
  | char r ty u len unit =>
    cases hs
    simp only [retype, utf8.injEq, true_and] at hd
    obtain ⟨rfl, rfl⟩ := hd
    exact charToRaw_ok hc
  | varchar r ty u len unit =>
    cases hs
    simp only [retype, utf8.injEq, true_and] at hd
    obtain ⟨rfl, rfl⟩ := hd
    exact ⟨_, rfl⟩
  | _ =>
    cases hs
    exact ⟨_, rfl⟩

/-- A stored value of a type is read back, unless the length of its text was cut. -/
theorem reads_fromRaw (hv : HasType v t) (hs : t.serializable = .ok s) (hb : s.toRaw v = .ok b)
    (hl : v.writtenLen < 2 ^ 32) : Reads s.fromRaw b (v.stored t) := by
  obtain ⟨hf, hd⟩ := hv
  cases hf with
  | null => cases t <;> cases hs <;> cases hb
  | tupleNil | tupleCons => cases hs
  | boolean v =>
    cases hs
    cases hb
    intro s
    cases v <;> rfl
  | int8 v | uInt8 v =>
    cases hs
    cases hb
    exact reads_leWord (UInt8.toNat_lt _) (by simp [stored])
  | int16 v | uInt16 v =>
    cases hs
    cases hb
    exact reads_leWord (UInt16.toNat_lt _) (by simp [stored])
  | int32 v | uInt32 v | float32 v | date32 v =>
    cases hs
    cases hb
    exact reads_leWord (UInt32.toNat_lt _) (by simp [stored])
  | int64 v | uInt64 v | float64 v | date64 v =>
    cases hs
    cases hb
    exact reads_leWord (UInt64.toNat_lt _) (by simp [stored])
  | time32 v p q =>
    cases hs
    cases hb
    simp only [retype, time32.injEq, true_and] at hd
    exact reads_leWord (UInt32.toNat_lt _) (by simp [stored, hd])
  | time64 v p z q y =>
    cases hs
    cases hb
    simp only [retype, time64.injEq, true_and] at hd
    exact reads_leWord (UInt64.toNat_lt _) (by simp [stored, hd])
  | decimal d p q =>
    cases hs
    cases hb
    refine Reads.bind_nil (reads_readExact unexpectedEof (DecimalLayout.length_serialize d)) ?_
    exact (reads_lift (DecimalLayout.deserialize_serialize d)).bind_pure _
  | varchar r ty u len unit =>
    cases hs
    simp only [retype, utf8.injEq, true_and] at hd
    obtain ⟨rfl, rfl⟩ := hd
    cases hb
    exact (reads_writeU32Len hl).bind (reads_readText rfl rfl)
  | char r ty u len unit =>
    cases hs
    simp only [retype, utf8.injEq, true_and] at hd
    obtain ⟨rfl, rfl⟩ := hd
    exact reads_charToRaw hb hl

/-- A text whose length was cut is not read back, not even up to trailing spaces. -/
theorem toRaw_cut (hv : HasType v t) (hc : v.checkLen t = .ok ()) (hs : t.serializable = .ok s)
    (hb : s.toRaw v = .ok b) (hl : 2 ^ 32 ≤ v.writtenLen) (hr : s.fromRaw (b ++ rest) = .ok (w, r))
    : w.stored t ≠ v.stored t := by
  obtain ⟨hf, hd⟩ := hv
  cases hf with
  | varchar value ty u len unit =>
    cases hs
    simp only [retype, utf8.injEq, true_and] at hd
    obtain ⟨rfl, rfl⟩ := hd
    cases hb
    obtain ⟨value', rfl, hv⟩ := readCut_eq_ok hr
    intro he
    simp only [stored, utf8.injEq, and_true] at he
    subst he
    have hlen := congrArg length hv
    rw [id, length_take] at hlen
    have hmod := Nat.mod_lt (asBytes value').length (show 0 < 2 ^ 32 by decide)
    simp only [writtenLen] at hl
    omega
  | char value ty u len unit =>
    cases hs
    simp only [retype, utf8.injEq, true_and] at hd
    obtain ⟨rfl, rfl⟩ := hd
    cases unit with
    | octets => simp [writtenLen] at hl
    | characters =>
      cases hb
      obtain ⟨value', rfl, hv⟩ := readCut_eq_ok hr
      intro he
      simp only [stored, utf8.injEq, and_true] at he
      have hlen := congrArg length hv
      have hle := length_trimSpaces_le
        (((asBytes value ++ writeSpaces (len.toNat - value.length)) ++ rest).take
          (((asBytes value).length + (len.toNat - value.length)) % 2 ^ 32))
      rw [← hlen, length_take] at hle
      have hcount : ¬ len.toNat < value.length := by
        intro h
        simp [checkLen, isOverLen, checkStringLen, h] at hc
      obtain ⟨k, hk, hkb⟩ := trimEnd_lengths value
      obtain ⟨k', -, hkb'⟩ := trimEnd_lengths value'
      rw [he] at hkb'
      have hlt := UInt32.toNat_lt len
      simp only [writtenLen] at hl
      omega
  | _ => simp [writtenLen] at hl

theorem reads_skipFixed (h : b.length = n) :
    Reads (skipFixed n).fromRaw b .null :=
  (reads_seek h).bind_nil (reads_pure _)

theorem reads_skipVariable (hn : n < 2 ^ 32) (h : a.length = n) :
    Reads skipVariable.fromRaw (writeU32Len n ++ a) .null :=
  (reads_writeU32Len hn).bind ((reads_seek h).bind_nil (reads_pure _))

/-- A skipped column consumes what the column wrote. -/
theorem toRaw_skip (hv : HasType v t) (hn : v.isNull = false) (hs : t.serializable = .ok s)
    (hb : s.toRaw v = .ok b) (hl : v.writtenLen < 2 ^ 32) (hk : t.skipSerializable = .ok k) :
    Reads k.fromRaw b .null := by
  obtain ⟨hf, hd⟩ := hv
  cases hf with
  | null => simp [isNull] at hn
  | tupleNil | tupleCons => cases hs
  | varchar value ty u len unit =>
    cases hs
    cases hk
    simp only [retype, utf8.injEq, true_and] at hd
    obtain ⟨rfl, rfl⟩ := hd
    cases hb
    exact reads_skipVariable hl rfl
  | char value ty u len unit =>
    cases hs
    simp only [retype, utf8.injEq, true_and] at hd
    obtain ⟨rfl, rfl⟩ := hd
    cases unit with
    | characters =>
      cases hk
      cases hb
      refine reads_skipVariable hl ?_
      rw [length_append, writeSpaces, length_replicate]
    | octets =>
      cases hk
      simp only [toRaw, charToRaw] at hb
      split at hb
      · cases hb
      · cases hb
        refine reads_skipFixed ?_
        rw [length_append, writeSpaces, length_replicate]
        omega
  | decimal d =>
    cases hs
    cases hk
    cases hb
    exact reads_skipFixed (DecimalLayout.length_serialize d)
  | boolean v =>
    cases hs
    cases hk
    cases hb
    exact reads_skipFixed rfl
  | _ =>
    cases hs
    cases hk
    cases hb
    exact reads_skipFixed (length_toLeBytes _ _)

theorem fillingValue_serializable (hs : t.serializable = .ok s) :
    s.fillingValue = s.fromRaw >>= fun value => pure [value] := by
  cases t <;> cases hs <;> rfl

theorem fillingValue_skip (hk : t.skipSerializable = .ok k) :
    k.fillingValue = k.fromRaw >>= fun _ => pure [] := by
  unfold LogicalType.skipSerializable at hk
  obtain ⟨len, -, hk⟩ := Result.bind_eq_ok.mp hk
  cases len <;> cases hk <;> rfl

section

variable (hs : t.serializable = .ok s)
include hs

/-- A column only takes values of its own representation. -/
theorem fits_of_toRaw (hb : s.toRaw v = .ok b) : Fits v t := by
  cases t <;> cases hs <;> cases v <;> first | constructor | cases hb

/-- The declared string type, precision and zone are not written. -/
theorem toRaw_retype (hb : s.toRaw v = .ok b) (hc : v.declaresChar t) :
    HasType (v.retype t) t ∧ s.toRaw (v.retype t) = .ok b ∧
      (v.retype t).writtenLen = v.writtenLen := by
  cases fits_of_toRaw hs hb with
  | null => cases t <;> cases hs <;> cases hb
  | tupleNil | tupleCons => cases hs
  | char value ty unit =>
    obtain ⟨rfl, rfl⟩ := hc
    exact ⟨⟨.char .., rfl⟩, hb, rfl⟩
  | varchar value ty unit =>
    cases hs
    cases ty with
    | fixed => cases hb
    | _ => exact ⟨⟨.varchar .., rfl⟩, hb, rfl⟩
  | time32 =>
    cases hs
    exact ⟨⟨.time32 .., rfl⟩, hb, rfl⟩
  | time64 =>
    cases hs
    exact ⟨⟨.time64 .., rfl⟩, hb, rfl⟩
  | _ => exact ⟨⟨by constructor, rfl⟩, hb, rfl⟩

theorem reads_fillingValue (ha : s.toRaw v = .ok a) (hc : v.declaresChar t)
    (hl : v.writtenLen < 2 ^ 32) : Reads s.fillingValue a [v.kept t] := by
  obtain ⟨hv, hb, hw⟩ := toRaw_retype hs ha hc
  rw [fillingValue_serializable hs]
  exact (reads_fromRaw hv hs hb (by omega)).bind_pure _

/-- What is read from a column belongs to the column. -/
theorem hasType_of_fromRaw (h : s.fromRaw a = .ok (w, r)) : HasType w t := by
  cases t with
  | sqlNull | tuple => cases hs
  | char len unit =>
    cases hs
    cases unit with
    | characters =>
      obtain ⟨n, r', -, h⟩ := bind_eq_ok.mp h
      obtain ⟨value, rfl, -⟩ := readText_eq_ok h
      exact ⟨.char .., rfl⟩
    | octets =>
      obtain ⟨value, rfl, -⟩ := readText_eq_ok h
      exact ⟨.char .., rfl⟩
  | varchar len unit =>
    cases hs
    obtain ⟨n, r', -, h⟩ := bind_eq_ok.mp h
    obtain ⟨value, rfl, -⟩ := readText_eq_ok h
    exact ⟨.varchar .., rfl⟩
  | decimal =>
    cases hs
    obtain ⟨n, r', -, h⟩ := bind_eq_ok.mp h
    obtain ⟨d, r'', -, h⟩ := bind_eq_ok.mp h
    obtain ⟨rfl, rfl⟩ := pure_eq_ok.mp h
    exact ⟨.decimal .., rfl⟩
  | _ =>
    cases hs
    obtain ⟨n, r', -, h⟩ := bind_eq_ok.mp h
    obtain ⟨rfl, rfl⟩ := pure_eq_ok.mp h
    exact ⟨by constructor, rfl⟩

end

theorem reads_fillingValue_skip (hv : HasType v t) (hn : v.isNull = false)
    (hs : t.serializable = .ok s) (ha : s.toRaw v = .ok a) (hl : v.writtenLen < 2 ^ 32)
    (hk : t.skipSerializable = .ok k) : Reads k.fillingValue a [] := by
  rw [fillingValue_skip hk]
  exact (toRaw_skip hv hn hs ha hl hk).bind_pure _

end KiteSQL
