import KiteSQL.Lib.Iterate
import KiteSQL.Serdes.DataValue
import KiteSQL.Storage.TableCodec
import KiteSQL.Types.Tuple

/-! Values that are collected in memory and, when they are many, in the segments of a file. -/
namespace KiteSQL

open Endian ByteReader Iterate DataValue

class SpillCodec (α : Type) where
  encode : α → Result Bytes
  decode : Reader α

/-- How much memory a value is taken to use. -/
class EstimatedSize (α : Type) where
  estimatedSize : α → Nat

section Codecs
variable {α : Type} [SpillCodec α]

def encodeEach : List α → Result Bytes
  | [] => .ok []
  | value :: values => do
    let bytes ← SpillCodec.encode value
    return bytes ++ (← encodeEach values)

instance [DecimalLayout] : SpillCodec DataValue where
  encode := DataValue.encodeReferenceValue
  decode := DataValue.decodeReferenceValue

instance : SpillCodec (List α) where
  encode values := do return (← writeLen values.length) ++ (← encodeEach values)
  decode := do readMany SpillCodec.decode (← readLeWord 4)

instance : SpillCodec (Option α) where
  encode
    | some value => do return 1 :: (← SpillCodec.encode value)
    | none => .ok [0]
  decode := do
    let tag ← readU8
    if tag = 0 then return none
    else if tag = 1 then return some (← SpillCodec.decode)
    else throw (.error (.invalidValue s!"invalid spill option tag: {tag}"))

instance [DecimalLayout] : SpillCodec Tuple where
  encode tuple := do return (← SpillCodec.encode tuple.pk) ++ (← SpillCodec.encode tuple.values)
  decode := do return ⟨← SpillCodec.decode, ← SpillCodec.decode⟩

end Codecs

/-- How many rows, and how much memory, a segment takes before it is written. -/
structure SpillLimits where
  maxRows : UInt64
  maxBytes : UInt64

def SpillLimits.default : SpillLimits := ⟨1024, 1024 * 1024⟩

structure SpillVec (α : Type) where
  buffer : List α
  bufferBytes : Nat
  file : Option Bytes
  onFlush : Option (List α → Result (List α))
  limits : SpillLimits

structure SegmentReader where
  reader : Bytes
  remainingRows : Nat

/-- What is read back: values in memory, or the segments of a file before the values in memory. -/
inductive SpillReader (α : Type) where
  | memory (rows : List α)
  | spilled (reader : SegmentReader) (tail : List α) (file : Bytes)
  | exhausted (error : Option Fault)

/-- The count of the rows before the rows. -/
def segmentBytes {α : Type} [SpillCodec α] (rows : List α) : Result Bytes := do
  return toLeBytes 8 rows.length ++ (← encodeEach rows)

/-- `append_segment`: the position of the new segment, and the file behind it. -/
def appendSegment {α : Type} [SpillCodec α] (file : Bytes) (rows : List α) :
    Result (Nat × Bytes) := do
  return (file.length, file ++ (← segmentBytes rows))

namespace SpillVec

variable {α : Type}

def new (limits : SpillLimits) (onFlush : Option (List α → Result (List α))) : SpillVec α :=
  ⟨[], 0, none, onFlush, limits⟩

def isSpilled (self : SpillVec α) : Bool := self.file.isSome

def startSpilling (self : SpillVec α) : SpillVec α := { self with file := some (self.file.getD []) }

def runOnFlush (self : SpillVec α) : Result (List α) :=
  match self.onFlush with
  | some onFlush => onFlush self.buffer
  | none => .ok self.buffer

section Write
variable [SpillCodec α]

/-- `flush` of the write state. -/
def writeBuffer (self : SpillVec α) : Result (Option Nat × SpillVec α) :=
  if self.buffer.isEmpty then .ok (none, self)
  else do
    let buffer ← self.runOnFlush
    match self.file with
    | none => throw (.error (.invalidValue "cannot flush without a spill file"))
    | some file =>
      let (segment, file) ← appendSegment file buffer
      return (some segment, { self with buffer := [], bufferBytes := 0, file := some file })

def flush (self : SpillVec α) : Result (Option Nat × SpillVec α) :=
  if self.buffer.isEmpty then .ok (none, self) else self.startSpilling.writeBuffer

def push [EstimatedSize α] (self : SpillVec α) (value : α) : Result (Option Nat × SpillVec α) :=
  let self := { self with
    buffer := self.buffer ++ [value],
    bufferBytes := min usizeMax (self.bufferBytes + EstimatedSize.estimatedSize value) }
  if self.limits.maxRows.toNat ≤ self.buffer.length ∨
      self.limits.maxBytes.toNat ≤ self.bufferBytes then
    self.startSpilling.writeBuffer
  else .ok (none, self)

/-- The pushes of rows one after the other, and where the segments start that they end. -/
def pushAll [EstimatedSize α] (self : SpillVec α) : List α → Result (List Nat × SpillVec α)
  | [] => .ok ([], self)
  | value :: values => do
    let (segment, self) ← self.push value
    let (segments, self) ← self.pushAll values
    return (segment.toList ++ segments, self)

end Write

def intoIter (self : SpillVec α) : SpillReader α :=
  match self.runOnFlush with
  | .error error => .exhausted (some error)
  | .ok buffer =>
    match self.file with
    | none => .memory buffer
    | some file => .spilled ⟨file, 0⟩ buffer file

end SpillVec

namespace SegmentReader

def startNextSegment (self : SegmentReader) : Result (Bool × SegmentReader) :=
  if self.reader.isEmpty then .ok (false, self)
  else do
    let (rowCount, reader) ← readLeWord 8 self.reader
    if rowCount = 0 then throw (.error (.invalidValue "spill segment cannot be empty"))
    else return (true, ⟨reader, rowCount⟩)

/-- Seeks the segment at a position of the file. -/
def reset (file : Bytes) (offset : Nat) : Result SegmentReader := do
  let (started, self) ← (⟨file.drop offset, 0⟩ : SegmentReader).startNextSegment
  if started then return self
  else throw (.error (.invalidValue "spill segment offset points to end of file"))

def next {α : Type} [SpillCodec α] (self : SegmentReader) : Result (Option α × SegmentReader) :=
  if self.remainingRows = 0 then .ok (none, self)
  else do
    let (value, reader) ← SpillCodec.decode self.reader
    return (some value, ⟨reader, self.remainingRows - 1⟩)

end SegmentReader

namespace SpillReader

variable {α : Type}

def next [SpillCodec α] : SpillReader α → Result (Option α × SpillReader α)
  | .memory [] => .ok (none, .memory [])
  | .memory (row :: rows) => .ok (some row, .memory rows)
  | .exhausted none => .ok (none, .exhausted none)
  | .exhausted (some error) => .error error
  | .spilled reader tail file => do
    match ← reader.next with
    | (some value, reader) => return (some value, .spilled reader tail file)
    | (none, reader) =>
      let (started, reader) ← reader.startNextSegment
      if started then
        -- the loop turns once more, in a segment that has a row
        let (value, reader) ← reader.next
        return (value, .spilled reader tail file)
      else return (tail.head?, .spilled reader tail.tail file)

/-- Rewinds a file that holds all values. -/
def reset : SpillReader α → Result (SpillReader α)
  | .spilled _ tail file =>
    if tail.isEmpty then do return .spilled (← SegmentReader.reset file 0) tail file
    else .error (.error (.invalidValue "cannot reset a SpillReader with an in-memory tail"))
  | _ => .error (.error (.invalidValue "cannot reset an in-memory SpillReader"))

/-- `open_segment_reader`, and the `reset` of that reader to a segment. -/
def openSegment (self : SpillReader α) (offset : Nat) : Result SegmentReader :=
  match self with
  | .spilled _ _ file => SegmentReader.reset file offset
  | _ => .error (.error (.invalidValue "cannot open a segment reader for an in-memory SpillVec"))

end SpillReader

namespace DataValue

mutual

/-- No parameter, and no text or tuple whose length does not fit 32 bits. -/
def spillable : DataValue → Bool
  | .parameter _ _ => false
  | .utf8 value _ _ => decide ((asBytes value).length < 2 ^ 32)
  | .tuple values => decide (values.length < 2 ^ 32) && spillableAll values
  | _ => true

def spillableAll : List DataValue → Bool
  | [] => true
  | value :: values => value.spillable && spillableAll values

end

end DataValue

def Tuple.spillable (tuple : Tuple) : Bool :=
  tuple.pk.all DataValue.spillable && (DataValue.tuple tuple.values).spillable

theorem writeLen_ok {n : Nat} (h : n < 2 ^ 32) : writeLen n = .ok (toLeBytes 4 n) := if_pos h

section Spillable
variable [DecimalLayout] {value : DataValue} {values : List DataValue}

theorem DataValue.encodeReferenceValues_ok
    (h : ∀ v ∈ values, v.spillable = true → ∃ a, v.encodeReferenceValue = .ok a)
    (hs : spillableAll values = true) : ∃ a, encodeReferenceValues values = .ok a := by
  induction values with
  | nil => exact ⟨[], rfl⟩
  | cons v values ih =>
    rw [spillableAll, Bool.and_eq_true] at hs
    obtain ⟨a, ha⟩ := h v (by simp) hs.1
    obtain ⟨b, hb⟩ := ih (fun w hw => h w (by simp [hw])) hs.2
    exact ⟨a ++ b, by simp [encodeReferenceValues, ha, hb]⟩

theorem DataValue.encode_of_spillable (h : value.spillable = true) :
    ∃ a, value.encodeReferenceValue = .ok a := by
  induction value with
  | parameter => cases h
  | utf8 s ty unit =>
    have hlen : (asBytes s).length < 2 ^ 32 := by simpa [spillable] using h
    exact ⟨_, by rw [encodeReferenceValue, writeString, writeLen_ok hlen]; rfl⟩
  | tuple vs ih =>
    rw [spillable, Bool.and_eq_true, decide_eq_true_eq] at h
    obtain ⟨a, ha⟩ := encodeReferenceValues_ok (fun v hv hs => ih v hv hs) h.2
    exact ⟨_, by rw [encodeReferenceValue, writeLen_ok h.1, ha]; rfl⟩
  | _ => exact ⟨_, rfl⟩

theorem encode_values_of_spillable (h : (tuple values).spillable = true) :
    ∃ a, SpillCodec.encode values = .ok a := by
  rw [spillable, Bool.and_eq_true, decide_eq_true_eq] at h
  have heach : ∃ a, encodeEach values = .ok a := by
    obtain ⟨hlen, hall⟩ := h
    clear hlen
    induction values with
    | nil => exact ⟨[], rfl⟩
    | cons v values ih =>
      rw [spillableAll, Bool.and_eq_true] at hall
      obtain ⟨a, ha⟩ := encode_of_spillable hall.1
      obtain ⟨b, hb⟩ := ih hall.2
      have ha' : SpillCodec.encode v = .ok a := ha
      exact ⟨a ++ b, by simp [encodeEach, ha', hb]⟩
  obtain ⟨a, ha⟩ := heach
  refine ⟨toLeBytes 4 values.length ++ a, ?_⟩
  change (writeLen values.length >>= fun b => encodeEach values >>= _) = _
  rw [writeLen_ok h.1, Result.ok_bind, ha]
  rfl

theorem Tuple.encode_of_spillable {tuple : Tuple} (h : tuple.spillable = true) :
    ∃ a, SpillCodec.encode tuple = .ok a := by
  rw [Tuple.spillable, Bool.and_eq_true] at h
  obtain ⟨b, hb⟩ := encode_values_of_spillable h.2
  have hpk : ∃ a, SpillCodec.encode tuple.pk = .ok a := by
    cases hp : tuple.pk with
    | none => exact ⟨_, rfl⟩
    | some pk =>
      rw [hp] at h
      obtain ⟨a, ha⟩ := DataValue.encode_of_spillable h.1
      have ha' : SpillCodec.encode pk = .ok a := ha
      refine ⟨1 :: a, ?_⟩
      change (SpillCodec.encode pk >>= _) = _
      rw [ha']
      rfl
  obtain ⟨a, ha⟩ := hpk
  refine ⟨a ++ b, ?_⟩
  change (SpillCodec.encode tuple.pk >>= fun c => SpillCodec.encode tuple.values >>= _) = _
  rw [ha, Result.ok_bind, hb]
  rfl

/-- A row of a text of 2 ^ 32 bytes cannot be written. -/
theorem DataValue.encode_longText {value : String} (h : (asBytes value).length = 2 ^ 32) :
    SpillCodec.encode [utf8 value (.variable none) .octets] =
      .error (.error .tryFromInt) := by
  have hlen : writeLen (asBytes value).length = .error (.error .tryFromInt) := by
    rw [h]
    exact if_neg (by omega)
  have htext : SpillCodec.encode (utf8 value (.variable none) .octets) =
      .error (.error .tryFromInt) := by
    change encodeReferenceValue _ = _
    rw [encodeReferenceValue, writeString, hlen]
    rfl
  have heach : encodeEach [utf8 value (.variable none) .octets] =
      .error (.error .tryFromInt) := by
    rw [encodeEach, htext]
    rfl
  change (writeLen 1 >>= fun b => encodeEach [utf8 value (.variable none) .octets]
    >>= _) = _
  rw [heach]
  rfl

end Spillable

/-- What is written is not empty and is read back as it was. -/
class LawfulSpillCodec (α : Type) [SpillCodec α] : Prop where
  reads : ∀ {value : α} {bytes : Bytes}, SpillCodec.encode value = .ok bytes →
    Reads SpillCodec.decode bytes value
  ne_nil : ∀ {value : α} {bytes : Bytes}, SpillCodec.encode value = .ok bytes → bytes ≠ []

section Laws
variable {α : Type} [SpillCodec α] [LawfulSpillCodec α] {values : List α} {bytes : Bytes}

theorem reads_readMany_encodeEach (h : encodeEach values = .ok bytes) :
    Reads (readMany SpillCodec.decode values.length) bytes values := by
  induction values generalizing bytes with
  | nil =>
    cases h
    exact reads_pure []
  | cons value values ih =>
    obtain ⟨a, b, ha, hb, h⟩ := Result.bind_bind_eq_ok.mp h
    cases h
    refine Reads.bind (LawfulSpillCodec.reads ha) ?_
    rw [← List.append_nil b]
    exact Reads.bind (ih hb) (reads_pure _)

theorem length_le_of_encodeEach (h : encodeEach values = .ok bytes) :
    values.length ≤ bytes.length := by
  induction values generalizing bytes with
  | nil => exact Nat.zero_le _
  | cons value values ih =>
    obtain ⟨a, b, ha, hb, h⟩ := Result.bind_bind_eq_ok.mp h
    cases h
    have hpos := List.length_pos_iff.mpr (LawfulSpillCodec.ne_nil ha)
    have hb := ih hb
    rw [List.length_append, List.length_cons]
    omega

instance [DecimalLayout] : LawfulSpillCodec DataValue where
  reads h := DataValue.reads_decodeReferenceValue h
  ne_nil {value bytes} h := by
    rintro rfl
    have hr := DataValue.reads_decodeReferenceValue h []
    cases hr

instance : LawfulSpillCodec (List α) where
  reads h := by
    obtain ⟨a, b, ha, hb, h⟩ := Result.bind_bind_eq_ok.mp h
    cases h
    exact Reads.bind (reads_writeLen ha) (reads_readMany_encodeEach hb)
  ne_nil h := by
    obtain ⟨a, b, ha, hb, h⟩ := Result.bind_bind_eq_ok.mp h
    cases h
    obtain ⟨-, rfl⟩ := writeLen_eq_ok ha
    rw [← List.length_pos_iff, List.length_append, length_toLeBytes]
    omega

instance : LawfulSpillCodec (Option α) where
  reads {value bytes} h := by
    cases value with
    | none =>
      cases h
      intro s
      rfl
    | some value =>
      obtain ⟨a, ha, h⟩ := Result.bind_eq_ok.mp h
      cases h
      exact Reads.bind (a := [1]) (reads_readByte _ 1) ((LawfulSpillCodec.reads ha).bind_pure _)
  ne_nil {value bytes} h := by
    cases value with
    | none =>
      cases h
      simp
    | some value =>
      obtain ⟨a, ha, h⟩ := Result.bind_eq_ok.mp h
      cases h
      simp

instance [DecimalLayout] : LawfulSpillCodec Tuple where
  reads h := by
    obtain ⟨a, b, ha, hb, h⟩ := Result.bind_bind_eq_ok.mp h
    cases h
    exact Reads.bind (LawfulSpillCodec.reads ha) ((LawfulSpillCodec.reads hb).bind_pure _)
  ne_nil h := by
    obtain ⟨a, b, ha, hb, h⟩ := Result.bind_bind_eq_ok.mp h
    cases h
    simp [LawfulSpillCodec.ne_nil ha]

end Laws

end KiteSQL
