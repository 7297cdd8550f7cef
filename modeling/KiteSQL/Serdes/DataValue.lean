import KiteSQL.Types.MemComparable

/-! The self-describing encoding of values, which index entries use for the row they point to. -/
namespace KiteSQL

open Endian ByteReader Reads Result

/-- The 16-byte form of a decimal, kept by the decimal crate. -/
class DecimalLayout where
  serialize : Decimal → Bytes
  deserialize : Bytes → Result Decimal
  length_serialize : ∀ d, (serialize d).length = 16
  deserialize_serialize : ∀ d, deserialize (serialize d) = .ok d

/-- Four bytes of scale and sign before the twelve of the magnitude. -/
@[reducible] def DecimalLayout.flagsFirst : DecimalLayout where
  serialize d :=
    toLeBytes 4 (d.scale * 2 ^ 16 + if d.negative then 2 ^ 31 else 0) ++ toLeBytes 12 d.magnitude
  deserialize bytes :=
    let flags := fromLeBytes (bytes.take 4)
    let magnitude := fromLeBytes (bytes.drop 4)
    let scale := flags / 2 ^ 16 % 2 ^ 8
    if h : magnitude < 2 ^ 96 ∧ scale ≤ 28 then
      .ok ⟨decide (2 ^ 31 ≤ flags), magnitude, scale, h.1, h.2⟩
    else .error (.panic "Scale exceeds maximum precision")
  length_serialize d := by
    simp [length_toLeBytes]
  deserialize_serialize d := by
    obtain ⟨negative, magnitude, scale, hm, hs⟩ := d
    have hf : scale * 2 ^ 16 + (if negative then 2 ^ 31 else 0) < 256 ^ 4 := by
      split <;> omega
    have hm' : magnitude < 256 ^ 12 := lt_of_lt_of_eq hm (by norm_num)
    rw [List.take_left' (length_toLeBytes _ _), List.drop_left' (length_toLeBytes _ _),
      fromLeBytes_toLeBytes hf, fromLeBytes_toLeBytes hm']
    have hscale : (scale * 2 ^ 16 + if negative then 2 ^ 31 else 0) / 2 ^ 16 % 2 ^ 8 = scale := by
      split <;> omega
    have hneg : decide (2 ^ 31 ≤ scale * 2 ^ 16 + if negative then 2 ^ 31 else 0) = negative := by
      cases negative with
      | false => exact decide_eq_false (by rw [if_neg (by decide)]; omega)
      | true => exact decide_eq_true (by rw [if_pos rfl]; omega)
    simp only [hscale, hneg, hm, hs, and_self, dite_true]

def readLeWord (n : Nat) : Reader Nat := readLe unexpectedEof n

/-- Lengths that do not fit 32 bits are refused. -/
def writeLen (len : Nat) : Result Bytes :=
  if len < 2 ^ 32 then .ok (toLeBytes 4 len) else .error (.error .tryFromInt)

def writeBool (value : Bool) : Bytes := [if value then 1 else 0]

def readBool : Reader Bool := do
  let value ← readU8
  if value = 0 then return false
  else if value = 1 then return true
  else throw (.error (.invalidValue s!"invalid bool value: {value}"))

def writeString (value : String) : Result Bytes := do
  return (← writeLen (asBytes value).length) ++ asBytes value

def readString : Reader String := do
  let len ← readLeWord 4
  let bytes ← readExact unexpectedEof len
  fromUtf8 bytes

def writeUtf8Type : Utf8Type → Bytes
  | .variable none => [0, 0]
  | .variable (some len) => [0, 1] ++ toLeBytes 4 len.toNat
  | .fixed len => 1 :: toLeBytes 4 len.toNat

def readUtf8Type : Reader Utf8Type := do
  let tag ← readU8
  if tag = 0 then
    let tag ← readU8
    if tag = 0 then return .variable none
    else if tag = 1 then return .variable (some (UInt32.ofNat (← readLeWord 4)))
    else throw (.error (.invalidValue s!"invalid option tag: {tag}"))
  else if tag = 1 then return .fixed (UInt32.ofNat (← readLeWord 4))
  else throw (.error (.invalidValue s!"invalid utf8 type tag: {tag}"))

def writeCharLengthUnits : CharLengthUnits → Bytes
  | .characters => [0]
  | .octets => [1]

def readCharLengthUnits : Reader CharLengthUnits := do
  let tag ← readU8
  if tag = 0 then return .characters
  else if tag = 1 then return .octets
  else throw (.error (.invalidValue s!"invalid char length units tag: {tag}"))

variable {a b : Bytes} {n k : Nat}

theorem reads_readLeWord (h : k < 256 ^ n) : Reads (readLeWord n) (toLeBytes n k) k :=
  reads_readLe unexpectedEof h

theorem reads_leWord {α : Type} {g : Nat → α} {x : α} (hk : k < 256 ^ n) (hx : g k = x) :
    Reads (readLeWord n >>= fun k => pure (g k)) (toLeBytes n k) x := by
  subst hx
  exact (reads_readLeWord hk).bind_pure g

theorem reads_readBool (v : Bool) : Reads readBool (writeBool v) v := by
  intro s
  cases v <;> rfl

theorem writeLen_eq_ok (h : writeLen n = .ok b) : n < 2 ^ 32 ∧ b = toLeBytes 4 n := by
  unfold writeLen at h
  split at h
  · next hn =>
    cases h
    exact ⟨hn, rfl⟩
  · cases h

theorem exists_writeLen : (∃ b, writeLen n = .ok b) ↔ n < 2 ^ 32 := by
  constructor
  · rintro ⟨b, hb⟩
    exact (writeLen_eq_ok hb).1
  · intro hn
    exact ⟨_, if_pos hn⟩

theorem reads_writeLen (h : writeLen n = .ok b) : Reads (readLeWord 4) b n := by
  obtain ⟨hn, rfl⟩ := writeLen_eq_ok h
  exact reads_readLeWord hn

theorem reads_readString {value : String} (h : writeString value = .ok b) :
    Reads readString b value := by
  obtain ⟨len, hl, h⟩ := bind_eq_ok.mp h
  cases h
  refine (reads_writeLen hl).bind ?_
  exact (reads_readExact unexpectedEof rfl).bind_nil (reads_lift (fromUtf8_asBytes value))

theorem reads_readUtf8Type (ty : Utf8Type) : Reads readUtf8Type (writeUtf8Type ty) ty := by
  rcases ty with (_ | len) | len
  · intro s
    rfl
  · refine bind (a := [0]) (reads_readByte unexpectedEof 0) ?_
    refine bind (a := [1]) (reads_readByte unexpectedEof 1) ?_
    exact reads_leWord (UInt32.toNat_lt len) (by simp)
  · refine bind (a := [1]) (reads_readByte unexpectedEof 1) ?_
    exact reads_leWord (UInt32.toNat_lt len) (by simp)

theorem reads_readCharLengthUnits (unit : CharLengthUnits) :
    Reads readCharLengthUnits (writeCharLengthUnits unit) unit := by
  intro s
  cases unit <;> rfl

/-- Reads a fixed number of items one after the other. -/
def readMany {α : Type} (item : Reader α) : Nat → Reader (List α)
  | 0 => return []
  | n + 1 => do
    let x ← item
    return x :: (← readMany item n)

namespace DataValue

variable [DecimalLayout]

mutual

def encodeReferenceValue : DataValue → Result Bytes
  | .parameter _ _ => .error (.error (.invalidValue "unbound parameter cannot be serialized"))
  | .null => .ok [0]
  | .boolean v => .ok (1 :: writeBool v)
  | .float32 u => .ok (2 :: toLeBytes 4 u.toNat)
  | .float64 u => .ok (3 :: toLeBytes 8 u.toNat)
  | .int8 v => .ok (4 :: toLeBytes 1 v.toUInt8.toNat)
  | .int16 v => .ok (5 :: toLeBytes 2 v.toUInt16.toNat)
  | .int32 v => .ok (6 :: toLeBytes 4 v.toUInt32.toNat)
  | .int64 v => .ok (7 :: toLeBytes 8 v.toUInt64.toNat)
  | .uInt8 v => .ok (8 :: toLeBytes 1 v.toNat)
  | .uInt16 v => .ok (9 :: toLeBytes 2 v.toNat)
  | .uInt32 v => .ok (10 :: toLeBytes 4 v.toNat)
  | .uInt64 v => .ok (11 :: toLeBytes 8 v.toNat)
  | .utf8 value ty unit => do
    return 12 :: ((← writeString value) ++ (writeUtf8Type ty ++ writeCharLengthUnits unit))
  | .date32 v => .ok (13 :: toLeBytes 4 v.toUInt32.toNat)
  | .date64 v => .ok (14 :: toLeBytes 8 v.toUInt64.toNat)
  | .time32 v precision => .ok (15 :: (toLeBytes 4 v.toNat ++ toLeBytes 8 precision.toNat))
  | .time64 v precision zone =>
    .ok (16 :: (toLeBytes 8 v.toUInt64.toNat ++ (toLeBytes 8 precision.toNat ++ writeBool zone)))
  | .decimal d => .ok (17 :: DecimalLayout.serialize d)
  | .tuple values => do
    return 18 :: ((← writeLen values.length) ++ (← encodeReferenceValues values))

def encodeReferenceValues : List DataValue → Result Bytes
  | [] => .ok []
  | v :: vs => do
    let b ← encodeReferenceValue v
    return b ++ (← encodeReferenceValues vs)

end

/-- What follows a tag, where the components of a tuple are read by `component`. -/
def decodeTagged (component : Reader DataValue) (tag : UInt8) : Reader DataValue :=
  if tag = 0 then return .null
  else if tag = 1 then return .boolean (← readBool)
  else if tag = 2 then return .float32 (UInt32.ofNat (← readLeWord 4))
  else if tag = 3 then return .float64 (UInt64.ofNat (← readLeWord 8))
  else if tag = 4 then return .int8 (UInt8.ofNat (← readLeWord 1)).toInt8
  else if tag = 5 then return .int16 (UInt16.ofNat (← readLeWord 2)).toInt16
  else if tag = 6 then return .int32 (UInt32.ofNat (← readLeWord 4)).toInt32
  else if tag = 7 then return .int64 (UInt64.ofNat (← readLeWord 8)).toInt64
  else if tag = 8 then return .uInt8 (UInt8.ofNat (← readLeWord 1))
  else if tag = 9 then return .uInt16 (UInt16.ofNat (← readLeWord 2))
  else if tag = 10 then return .uInt32 (UInt32.ofNat (← readLeWord 4))
  else if tag = 11 then return .uInt64 (UInt64.ofNat (← readLeWord 8))
  else if tag = 12 then
    return .utf8 (← readString) (← readUtf8Type) (← readCharLengthUnits)
  else if tag = 13 then return .date32 (UInt32.ofNat (← readLeWord 4)).toInt32
  else if tag = 14 then return .date64 (UInt64.ofNat (← readLeWord 8)).toInt64
  else if tag = 15 then
    return .time32 (UInt32.ofNat (← readLeWord 4)) (UInt64.ofNat (← readLeWord 8))
  else if tag = 16 then
    return .time64 (UInt64.ofNat (← readLeWord 8)).toInt64 (UInt64.ofNat (← readLeWord 8))
      (← readBool)
  else if tag = 17 then
    return .decimal (← DecimalLayout.deserialize (← readExact unexpectedEof 16))
  else if tag = 18 then return .tuple (← readMany component (← readLeWord 4))
  else throw (.error (.invalidValue s!"invalid data value tag: {tag}"))

/-- Tuples nest at most as deep as the input is long, which bounds the recursion. -/
def decodeNested : Nat → Reader DataValue
  | 0 => throw unexpectedEof
  | depth + 1 => do
    let tag ← readU8
    decodeTagged (decodeNested depth) tag

def decodeReferenceValue : Reader DataValue := fun s => decodeNested (s.length + 1) s

variable {v : DataValue} {vs : List DataValue} {component : Reader DataValue} {d : Nat}

theorem reads_readMany
    (ih : ∀ v ∈ vs, ∀ b, encodeReferenceValue v = .ok b → b.length ≤ d → Reads component b v)
    (h : encodeReferenceValues vs = .ok b) (hd : b.length ≤ d) :
    Reads (readMany component vs.length) b vs := by
  induction vs generalizing b with
  | nil =>
    cases h
    exact reads_pure []
  | cons v vs ihs =>
    obtain ⟨c, cs, hc, hcs, h⟩ := bind_bind_eq_ok.mp h
    cases h
    rw [List.length_append] at hd
    refine (ih v (by simp) c hc (by omega)).bind ?_
    rw [← List.append_nil cs]
    refine bind (ihs (fun w hw => ih w (by simp [hw])) hcs (by omega)) ?_
    exact reads_pure (v :: vs)

theorem reads_decodeNested {tag : UInt8} (hd : (tag :: a).length ≤ d)
    (h : ∀ d, a.length ≤ d → Reads (decodeTagged (decodeNested d) tag) a v) :
    Reads (decodeNested d) (tag :: a) v := by
  obtain ⟨d, rfl⟩ : ∃ e, d = e + 1 := ⟨d - 1, by simp at hd; omega⟩
  exact (reads_readByte unexpectedEof tag).bind (h d (by simpa using hd))

theorem reads_of_encodeReferenceValue (h : encodeReferenceValue v = .ok b) (hd : b.length ≤ d) :
    Reads (decodeNested d) b v := by
  induction v generalizing b d with
  | parameter => cases h
  | tuple vs ih =>
    obtain ⟨len, c, hl, hc, h⟩ := bind_bind_eq_ok.mp h
    cases h
    refine reads_decodeNested hd fun d hd => ?_
    refine bind (reads_writeLen hl) (bind_pure (reads_readMany (d := d) ?_ hc ?_) _)
    · intro v hv b hb hd
      exact ih v hv hb hd
    · rw [List.length_append] at hd
      omega
  | utf8 s ty unit =>
    obtain ⟨c, hc, h⟩ := bind_eq_ok.mp h
    cases h
    refine reads_decodeNested hd fun d _ => ?_
    refine bind (reads_readString hc) ?_
    refine bind (reads_readUtf8Type ty) ?_
    exact (reads_readCharLengthUnits unit).bind_pure _
  | time32 v p =>
    cases h
    refine reads_decodeNested hd fun d _ => ?_
    refine bind (reads_readLeWord (UInt32.toNat_lt v)) ?_
    exact reads_leWord (UInt64.toNat_lt p) (by simp)
  | time64 v p z =>
    cases h
    refine reads_decodeNested hd fun d _ => ?_
    refine bind (reads_readLeWord (UInt64.toNat_lt _)) ?_
    refine bind (reads_readLeWord (UInt64.toNat_lt p)) ?_
    refine (reads_readBool z).bind_nil ?_
    intro s
    simp [pure_apply]
  | decimal v =>
    cases h
    refine reads_decodeNested hd fun _ _ => ?_
    refine bind_nil (reads_readExact unexpectedEof (DecimalLayout.length_serialize v)) ?_
    exact (reads_lift (DecimalLayout.deserialize_serialize v)).bind_pure _
  | null =>
    cases h
    exact reads_decodeNested hd fun _ _ _ => rfl
  | boolean v =>
    cases h
    exact reads_decodeNested hd fun _ _ => (reads_readBool v).bind_pure _
  | float32 u | date32 u | int32 u | uInt32 u =>
    cases h
    exact reads_decodeNested hd fun _ _ => reads_leWord (UInt32.toNat_lt _) (by simp)
  | float64 u | date64 u | int64 u | uInt64 u =>
    cases h
    exact reads_decodeNested hd fun _ _ => reads_leWord (UInt64.toNat_lt _) (by simp)
  | int16 u | uInt16 u =>
    cases h
    exact reads_decodeNested hd fun _ _ => reads_leWord (UInt16.toNat_lt _) (by simp)
  | int8 u | uInt8 u =>
    cases h
    exact reads_decodeNested hd fun _ _ => reads_leWord (UInt8.toNat_lt _) (by simp)

/-- A written value is read back as it was. -/
theorem reads_decodeReferenceValue (h : encodeReferenceValue v = .ok b) :
    Reads decodeReferenceValue b v := by
  intro s
  refine reads_of_encodeReferenceValue h ?_ s
  rw [List.length_append]
  omega

mutual

/-- No parameter, and no text or tuple too long for the 32 bits of its length. -/
def isWritable : DataValue → Bool
  | .parameter _ _ => false
  | .utf8 value _ _ => (asBytes value).length < 2 ^ 32
  | .tuple values => values.length < 2 ^ 32 && allWritable values
  | _ => true

def allWritable : List DataValue → Bool
  | [] => true
  | v :: vs => isWritable v && allWritable vs

end

theorem exists_encodeReferenceValues
    (ih : ∀ v ∈ vs, (∃ b, encodeReferenceValue v = .ok b) ↔ v.isWritable = true) :
    (∃ b, encodeReferenceValues vs = .ok b) ↔ allWritable vs = true := by
  induction vs with
  | nil => simp [encodeReferenceValues, allWritable]
  | cons v vs ihs =>
    have hv := ih v (by simp)
    have hvs := ihs fun w hw => ih w (by simp [hw])
    simp [encodeReferenceValues, allWritable, bind_bind_eq_ok, ← hv, ← hvs]

theorem exists_encodeReferenceValue :
    (∃ b, encodeReferenceValue v = .ok b) ↔ v.isWritable = true := by
  induction v with
  | tuple vs ih =>
    have hvs := exists_encodeReferenceValues ih
    simp [encodeReferenceValue, isWritable, Result.bind_bind_eq_ok, ← hvs, exists_writeLen]
  | utf8 s ty unit =>
    simp [encodeReferenceValue, isWritable, writeString, Result.bind_eq_ok, exists_writeLen]
  | _ => simp [encodeReferenceValue, isWritable]

/-- Exactly the writable values are written, and exactly these are, in front of any bytes, read back
as they were. -/
theorem encodeReferenceValue_decodes :
    ((∃ b, encodeReferenceValue v = .ok b) ↔ v.isWritable = true) ∧
      (v.isWritable = true ↔ ∃ b, encodeReferenceValue v = .ok b ∧
        ∀ suffix, decodeReferenceValue (b ++ suffix) = .ok (v, suffix)) := by
  refine ⟨exists_encodeReferenceValue, ?_⟩
  rw [← exists_encodeReferenceValue]
  constructor
  · rintro ⟨b, hb⟩
    exact ⟨b, hb, reads_decodeReferenceValue hb⟩
  · rintro ⟨b, hb, _⟩
    exact ⟨b, hb⟩

end DataValue

/-- A tuple of `2 ^ 32` NULLs is refused. -/
theorem DataValue.encodeReferenceValue_refuses_longTuple :
    @DataValue.encodeReferenceValue .flagsFirst (.tuple (List.replicate (2 ^ 32) .null)) =
      .error (.error .tryFromInt) := by
  simp only [DataValue.encodeReferenceValue, List.length_replicate]
  rfl

end KiteSQL
