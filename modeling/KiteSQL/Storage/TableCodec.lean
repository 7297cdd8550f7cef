import KiteSQL.Serdes.DataValue
import KiteSQL.Serdes.StableHash
import KiteSQL.Types.KeyDecode

/-! Keys and values of rows and index entries in the store. -/
namespace KiteSQL

open Endian ByteReader DataValue Result List

def boundMinTag : UInt8 := 0

def boundMaxTag : UInt8 := 0xff

def tableNameHashLen : Nat := 8

def keyTypeTagLen : Nat := 1

def keyBoundLen : Nat := 1

def tupleKeyPrefixLen : Nat := tableNameHashLen + keyTypeTagLen + keyBoundLen

def indexIdLen : Nat := 4

inductive IndexType where
  | primaryKey (isMultiple : Bool)
  | unique
  | normal
  | composite
deriving DecidableEq

/-- One entry of an index. -/
structure Index where
  id : UInt32
  values : List DataValue
  ty : IndexType

inductive CodecType where
  | column
  | indexMeta
  | index
  | statistics
  | view
  | tuple
  | root
  | hash
deriving DecidableEq

/-- Where a decoded index column goes in the scanned row. -/
structure IndexKeyMapping where
  targetLen : Nat → Nat
  scanIndex : Nat → Option Nat

def orderedMapping : IndexKeyMapping := ⟨id, some⟩

def usizeMax : Nat := 2 ^ 64 - 1

def tupleMappingRef (indexToScan : List Nat) (targetLen : Nat) : IndexKeyMapping where
  targetLen _ := targetLen
  scanIndex indexPos := indexToScan[indexPos]?.bind fun slot =>
    if slot = usizeMax then none else some slot

namespace TableCodec

def checkPrimaryKeyType : LogicalType → Result Unit
  | .tinyint | .smallint | .integer | .bigint | .uTinyint | .uSmallint | .uInteger | .uBigint
  | .char _ _ | .varchar _ _ | .date | .dateTime | .time _ | .timeStamp _ _ => .ok ()
  | _ => .error (.error .invalidType)

mutual

def checkPrimaryKey : DataValue → Nat → Result Unit
  | .tuple values, indentation =>
    if indentation > 1 then .error (.error .primaryKeyTooManyLayers)
    else checkPrimaryKeys values (indentation + 1)
  | value, indentation =>
    if indentation > 1 then .error (.error .primaryKeyTooManyLayers)
    else if value.isNull then .error (.error (.notNull (some "primary key")))
    else checkPrimaryKeyType value.logicalType

def checkPrimaryKeys : List DataValue → Nat → Result Unit
  | [], _ => .ok ()
  | value :: values, indentation => do
    checkPrimaryKey value indentation
    checkPrimaryKeys values indentation

end

def writeKeyPrefix (ty : CodecType) (tableHash : Bytes) : Bytes :=
  match ty with
  | .column => tableHash ++ [0x30]
  | .indexMeta => tableHash ++ [0x31]
  | .statistics => tableHash ++ [0x33]
  | .index => tableHash ++ [0x37]
  | .tuple => tableHash ++ [0x38]
  | .root => asBytes "Root" ++ boundMinTag :: tableHash
  | .view => asBytes "View" ++ boundMinTag :: tableHash
  | .hash => asBytes "Hash" ++ boundMinTag :: tableHash

/-- What the keys of a table's rows start with. -/
def tuplePrefix (tableName : String) (bound : UInt8) : Bytes :=
  writeKeyPrefix .tuple (hashBytes tableName) ++ [bound]

/-- What the keys of one index start with. -/
def indexPrefix (tableName : String) (id : UInt32) (bound : UInt8) : Bytes :=
  writeKeyPrefix .index (hashBytes tableName) ++
    boundMinTag :: (toLeBytes indexIdLen id.toNat ++ [bound])

def withTupleUnchecked (tableName : String) (tupleId : DataValue) (tupleValue : Result Bytes) :
    Result (Bytes × Bytes) := do
  let id ← tupleId.memcomparableEncode
  let value ← tupleValue
  return (tuplePrefix tableName boundMinTag ++ id, value)

def withTuple (tableName : String) (tupleId : DataValue) (tupleValue : Result Bytes) :
    Result (Bytes × Bytes) := do
  checkPrimaryKey tupleId 0
  withTupleUnchecked tableName tupleId tupleValue

def withTupleBound (tableName : String) : Bytes × Bytes :=
  (tuplePrefix tableName boundMinTag, tuplePrefix tableName boundMaxTag)

def withIndexBound (tableName : String) (indexId : UInt32) : Bytes × Bytes :=
  (indexPrefix tableName indexId boundMinTag, indexPrefix tableName indexId boundMaxTag)

/-- Only an index that admits equal values tells its entries apart by their rows. -/
def indexRow (ty : IndexType) (tupleId : Option DataValue) : Result Bytes :=
  match ty, tupleId with
  | .normal, some tupleId | .composite, some tupleId => tupleId.memcomparableEncode
  | _, _ => .ok []

/-- An entry points to its row. -/
def indexValue [DecimalLayout] : Option DataValue → Result Bytes
  | some tupleId => tupleId.encodeReferenceValue
  | none => .ok []

def withIndex [DecimalLayout] (tableName : String) (index : Index) (tupleId : Option DataValue) :
    Result (Bytes × Bytes) := do
  let values ← DataValue.memcomparableEncodeAll index.values
  let row ← indexRow index.ty tupleId
  let value ← indexValue tupleId
  return (indexPrefix tableName index.id boundMinTag ++ (values ++ row), value)

def decodeTupleKey (bytes : Bytes) (pkTy : LogicalType) : Result DataValue := do
  let bytes ← sliceFrom bytes tupleKeyPrefixLen
  runReader (DataValue.memcomparableDecode pkTy) bytes

def indexTypes : LogicalType → List LogicalType
  | .tuple types => types
  | ty => [ty]

def decodeIndexValues (mapping : IndexKeyMapping) :
    List LogicalType → Nat → List DataValue → Reader (List DataValue)
  | [], _, values => return values
  | ty :: types, indexPos, values => do
    let value ← DataValue.memcomparableDecode ty
    match mapping.scanIndex indexPos with
    | none => decodeIndexValues mapping types (indexPos + 1) values
    | some scanPos =>
      if scanPos < values.length then
        decodeIndexValues mapping types (indexPos + 1) (values.set scanPos value)
      else throw (.panic "index out of bounds")

def decodeIndexKey (bytes : Bytes) (ty : LogicalType) (mapping : IndexKeyMapping) :
    Result (List DataValue) := do
  let bytes ← sliceFrom bytes (tupleKeyPrefixLen + indexIdLen + keyBoundLen)
  let types := indexTypes ty
  let values := List.replicate (mapping.targetLen types.length) DataValue.null
  runReader (decodeIndexValues mapping types 0 values) bytes

def decodeIndex [DecimalLayout] (bytes : Bytes) : Result DataValue :=
  runReader DataValue.decodeReferenceValue bytes

variable {tableName : String} {a s : Bytes} {pk v w : DataValue} {vs ws : List DataValue}
  {t pkTy ty : LogicalType} {ts : List LogicalType} {index : Index} {rowId : Option DataValue}
  {tupleValue : Result Bytes} {key value tupleKey row : Bytes}

@[simp] theorem length_tuplePrefix (bound : UInt8) :
    (tuplePrefix tableName bound).length = tupleKeyPrefixLen := by
  simp [tuplePrefix, writeKeyPrefix, tupleKeyPrefixLen, tableNameHashLen, keyTypeTagLen,
    keyBoundLen]

@[simp] theorem length_indexPrefix (id : UInt32) (bound : UInt8) :
    (indexPrefix tableName id bound).length = tupleKeyPrefixLen + indexIdLen + keyBoundLen := by
  simp [indexPrefix, writeKeyPrefix, tupleKeyPrefixLen, tableNameHashLen, keyTypeTagLen,
    keyBoundLen, length_toLeBytes]
  omega

theorem withTupleUnchecked_eq_ok
    (h : withTupleUnchecked tableName pk tupleValue = .ok (key, value)) :
    ∃ a, pk.memcomparableEncode = .ok a ∧ tupleValue = .ok value ∧
      key = tuplePrefix tableName boundMinTag ++ a := by
  obtain ⟨a, b, ha, hb, h⟩ := bind_bind_eq_ok.mp h
  cases h
  exact ⟨a, ha, hb, rfl⟩

theorem withTuple_eq_ok : withTuple tableName pk tupleValue = .ok (key, value) ↔
    checkPrimaryKey pk 0 = .ok () ∧
      withTupleUnchecked tableName pk tupleValue = .ok (key, value) := by
  rw [withTuple, Result.bind_eq_ok]
  exact ⟨fun ⟨_, h⟩ => h, fun h => ⟨(), h⟩⟩

theorem withIndex_eq_ok [DecimalLayout] (h : withIndex tableName index rowId = .ok (key, value)) :
    ∃ a b, memcomparableEncodeAll index.values = .ok a ∧
      indexRow index.ty rowId = .ok b ∧
      key = indexPrefix tableName index.id boundMinTag ++ (a ++ b) ∧
      indexValue rowId = .ok value := by
  obtain ⟨a, b, ha, hb, h⟩ := bind_bind_eq_ok.mp h
  obtain ⟨c, hc, h⟩ := bind_eq_ok.mp h
  cases h
  exact ⟨a, b, ha, hb, rfl, hc⟩

theorem checkPrimaryKeys_exact {n : Nat}
    (ih : ∀ v ∈ vs, ∀ n, checkPrimaryKey v n = .ok () → v.isNull = false ∧ v.isExact = true)
    (h : checkPrimaryKeys vs n = .ok ()) : allExact vs = true := by
  induction vs with
  | nil => rfl
  | cons v vs ihs =>
    obtain ⟨_, hv, hvs⟩ := bind_eq_ok.mp h
    rw [allExact, (ih v (by simp) n hv).2, ihs (fun w hw => ih w (by simp [hw])) hvs]
    rfl

/-- A primary key is not NULL and no part of it is a float or a decimal. -/
theorem checkPrimaryKey_exact {n : Nat} (h : checkPrimaryKey v n = .ok ()) :
    v.isNull = false ∧ v.isExact = true := by
  induction v generalizing n with
  | tuple vs ih =>
    refine ⟨rfl, ?_⟩
    rw [checkPrimaryKey] at h
    split at h
    · cases h
    · exact checkPrimaryKeys_exact (fun w hw n hn => ih w hw hn) h
  | _ =>
    unfold checkPrimaryKey at h
    split at h <;> simp_all [isNull, logicalType, checkPrimaryKeyType, isExact]

theorem decodeIndexValues_ordered (done : List DataValue) :
    decodeIndexValues orderedMapping ts done.length
        (done ++ replicate ts.length null) =
      (memcomparableDecodeAll ts >>= fun vs => pure (done ++ vs)) := by
  induction ts generalizing done with
  | nil =>
    funext s
    simp [decodeIndexValues, memcomparableDecodeAll]
  | cons t ts ih =>
    have hstep : ∀ v, decodeIndexValues orderedMapping ts (done.length + 1)
        ((done ++ replicate (ts.length + 1) null).set done.length v) =
        (memcomparableDecodeAll ts >>= fun vs => pure (done ++ v :: vs)) := by
      intro v
      have h := ih (done ++ [v])
      simpa [replicate_succ, set_append] using h
    simp only [decodeIndexValues, memcomparableDecodeAll, length_cons,
      orderedMapping, bind_assoc, pure_bind]
    congr 1
    funext v
    rw [if_pos (by simp)]
    exact hstep v

theorem decodeTupleKey_append (h : Reads (memcomparableDecode pkTy) a v) :
    decodeTupleKey (tuplePrefix tableName boundMinTag ++ (a ++ s)) pkTy = .ok v := by
  rw [decodeTupleKey, sliceFrom_append (length_tuplePrefix _), ok_bind]
  exact runReader_of_reads h s

theorem decodeIndexKey_append {id : UInt32}
    (h : Reads (memcomparableDecodeAll (indexTypes ty)) a vs) :
    decodeIndexKey (indexPrefix tableName id boundMinTag ++ (a ++ s)) ty orderedMapping =
      .ok vs := by
  rw [decodeIndexKey, sliceFrom_append (length_indexPrefix _ _), ok_bind]
  refine runReader_of_reads ?_ s
  have hd := @decodeIndexValues_ordered (indexTypes ty) []
  simp only [length_nil, nil_append] at hd
  change Reads (decodeIndexValues orderedMapping (indexTypes ty) 0
    (replicate (indexTypes ty).length null)) a vs
  rw [hd]
  exact h.bind_pure _

/-- The value read equals the one written, and is that very value where equality identifies no
two representations. -/
structure SameValue (v w : DataValue) (t : LogicalType) : Prop where
  eq : DataValue.eq w v = true
  exact : v.isExact = true → w = v.retype t

theorem sameValue_iff (h : ReadBack v w t) : SameValue v w t ↔ v.hasPositiveNan = false := by
  constructor
  · intro hs
    have := hs.eq
    rw [h.eq_iff] at this
    simpa using this
  · intro hn
    exact ⟨by rw [h.eq_iff, hn]; rfl, h.exact⟩

theorem hasPositiveNan_of_exact (h : v.isExact = true) : v.hasPositiveNan = false := by
  induction v with
  | tuple vs ih =>
    rw [isExact] at h
    rw [hasPositiveNan]
    induction vs with
    | nil => rfl
    | cons v vs ihs =>
      simp only [allExact, Bool.and_eq_true] at h
      rw [anyPositiveNan, ih v (by simp) h.1, ihs (fun w hw => ih w (by simp [hw])) h.2]
      rfl
  | _ => simp_all [isExact, hasPositiveNan]

theorem decodeTupleKey_withTuple (hpk : Fits pk pkTy)
    (h : withTuple tableName pk tupleValue = .ok (key, value)) :
    ∃ w, decodeTupleKey key pkTy = .ok w ∧ SameValue pk w pkTy := by
  obtain ⟨hc, hu⟩ := withTuple_eq_ok.mp h
  obtain ⟨a, ha, -, rfl⟩ := withTupleUnchecked_eq_ok hu
  obtain ⟨b, w, hb, hr, hw⟩ := hpk.reads
  rw [ha] at hb
  cases hb
  have hd : decodeTupleKey (tuplePrefix tableName boundMinTag ++ (a ++ [])) pkTy = .ok w :=
    decodeTupleKey_append hr
  rw [append_nil] at hd
  refine ⟨w, hd, (sameValue_iff hw).mpr ?_⟩
  exact hasPositiveNan_of_exact (checkPrimaryKey_exact hc).2

theorem reads_memcomparableDecodeAll (h : Fits (.tuple vs) (.tuple ts)) :
    ∃ a ws, memcomparableEncodeAll vs = .ok a ∧
      Reads (memcomparableDecodeAll ts) a ws ∧
      ReadBack (.tuple vs) (.tuple ws) (.tuple ts) := by
  obtain ⟨a, w, ha, hr, hw⟩ := h.reads_body rfl
  obtain ⟨ws, rfl, hws⟩ := Reads.of_map (fun _ _ h => by simpa using h) hr
  exact ⟨a, ws, ha, hws, hw⟩

theorem decodeIndexKey_withIndex [DecimalLayout]
    (hvs : Fits (.tuple index.values) (.tuple (indexTypes ty)))
    (h : withIndex tableName index rowId = .ok (key, value)) :
    ∃ ws, ReadBack (.tuple index.values) (.tuple ws) (.tuple (indexTypes ty)) ∧
      ∀ s, decodeIndexKey (key ++ s) ty orderedMapping = .ok ws := by
  obtain ⟨a, b, ha, -, rfl, -⟩ := withIndex_eq_ok h
  obtain ⟨a', ws, ha', hr, hw⟩ := reads_memcomparableDecodeAll hvs
  rw [ha] at ha'
  cases ha'
  refine ⟨ws, hw, fun s => ?_⟩
  rw [append_assoc, append_assoc]
  exact decodeIndexKey_append hr

/-- A row key gives back the primary key; an index key gives back the index values exactly when
none of them is a NaN whose sign bit is clear. -/
theorem decode_keys_iff [DecimalLayout] (hpk : DataValue.Fits pk pkTy)
    (ht : withTuple tableName pk tupleValue = .ok (tupleKey, row))
    (hvs : DataValue.Fits (.tuple index.values) (.tuple (indexTypes ty)))
    (hi : withIndex tableName index rowId = .ok (key, value)) :
    (∃ w, decodeTupleKey tupleKey pkTy = .ok w ∧ SameValue pk w pkTy) ∧
      (∀ s, ∃ ws, decodeIndexKey (key ++ s) ty orderedMapping = .ok ws ∧
        SameValue (.tuple index.values) (.tuple ws) (.tuple (indexTypes ty))) ↔
    DataValue.anyPositiveNan index.values = false := by
  obtain ⟨ws, hw, hd⟩ := decodeIndexKey_withIndex hvs hi
  have hs := sameValue_iff hw
  rw [hasPositiveNan] at hs
  rw [← hs]
  constructor
  · rintro ⟨-, h⟩
    obtain ⟨ws', hd', h⟩ := h []
    rw [hd] at hd'
    cases hd'
    exact h
  · intro h
    exact ⟨decodeTupleKey_withTuple hpk ht, fun s => ⟨ws, hd s, h⟩⟩

theorem decode_keys_iff_boolean_index :
    ∃ tupleKey row key value,
      withTuple "t" (.int32 7) (.ok []) = .ok (tupleKey, row) ∧
      @withIndex .flagsFirst "t" ⟨1, [.boolean true], .normal⟩ (some (.int32 7)) =
        .ok (key, value) ∧
      (∃ w, decodeTupleKey tupleKey .integer = .ok w ∧ SameValue (.int32 7) w .integer) ∧
      ∀ s, ∃ ws, decodeIndexKey (key ++ s) .boolean orderedMapping = .ok ws ∧
        SameValue (.tuple [.boolean true]) (.tuple ws) (.tuple [.boolean]) :=
  ⟨_, _, _, _, rfl, rfl,
    (@decode_keys_iff "t" (.int32 7) .integer .boolean ⟨1, [.boolean true], .normal⟩
      (some (.int32 7)) (.ok []) _ _ _ _ .flagsFirst (.int32 7) rfl
      (.tupleCons (.boolean true) .tupleNil) rfl).mpr rfl⟩

/-- A quiet NaN comes back from its index key as a subnormal number. -/
theorem decode_keys_positive_nan :
    (@withIndex .flagsFirst "t" ⟨1, [.float64 0x7ff8000000000000], .normal⟩ (some (.int32 7)) >>=
      fun entry => decodeIndexKey entry.1 .double orderedMapping) =
        .ok [.float64 0x0007ffffffffffff] ∧
    DataValue.eq (.float64 0x0007ffffffffffff) (.float64 0x7ff8000000000000) = false := by
  exact ⟨rfl, by decide⟩

end TableCodec

end KiteSQL
