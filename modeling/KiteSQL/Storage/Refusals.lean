import KiteSQL.Storage.IndexedTable

/-! Only the write of a row and of a unique entry refuse a duplicate. -/
namespace KiteSQL

open TableCodec Tuple DataValue Result

section Result

variable {α β : Type} {x : Result α} {f : α → Result β}

/-- The error that a duplicate primary key or a duplicate unique value gives. -/
def Fault.isDuplicate : Fault → Bool
  | .error .duplicatePrimaryKey | .error .duplicateUniqueValue => true
  | _ => false

/-- The call does not fail with a duplicate. -/
def NoDuplicate (x : Result α) : Prop := ∀ e, x = .error e → e.isDuplicate = false

theorem noDuplicate_ok (a : α) : NoDuplicate (.ok a : Result α) := nofun

theorem noDuplicate_error {e : Fault} (he : e.isDuplicate = false) :
    NoDuplicate (.error e : Result α) := by
  rintro _ ⟨⟩
  exact he

theorem NoDuplicate.bind (hx : NoDuplicate x) (hf : ∀ a, NoDuplicate (f a)) :
    NoDuplicate (x >>= f) := by
  cases x with
  | error e => exact noDuplicate_error (hx e rfl)
  | ok a => exact hf a

theorem noDuplicate_mapM {g : α → Result β} (hg : ∀ a, NoDuplicate (g a)) (l : List α) :
    NoDuplicate (l.mapM g) := by
  induction l with
  | nil => exact noDuplicate_ok []
  | cons a l ih =>
    rw [List.mapM_cons]
    exact (hg a).bind fun b => ih.bind fun bs => noDuplicate_ok (b :: bs)

end Result

theorem noDuplicate_serializeDecimal (d : Decimal) : NoDuplicate (serializeDecimal d) := by
  have hfinish (bytes : Bytes) : NoDuplicate (finishDigits bytes) := by
    cases bytes with
    | nil => exact noDuplicate_error rfl
    | cons b bs => exact noDuplicate_ok _
  have hem : NoDuplicate (decimalEM d) := by
    unfold decimalEM
    split
    · exact noDuplicate_ok _
    · exact (hfinish _).bind fun _ => noDuplicate_ok _
  unfold serializeDecimal
  split
  · exact noDuplicate_ok _
  · refine hem.bind fun _ => ?_
    dsimp only
    split <;> exact noDuplicate_ok _

namespace DataValue

theorem noDuplicate_tagged {first : Bool} {v : DataValue} {body : Result Bytes}
    (h : NoDuplicate body) : NoDuplicate (tagged first v body) := by
  unfold tagged
  dsimp only
  split
  · exact noDuplicate_ok _
  · exact h.bind fun _ => noDuplicate_ok _

mutual

theorem noDuplicate_memcomparableBody : ∀ v : DataValue, NoDuplicate (memcomparableBody v)
  | .parameter _ _ => noDuplicate_error rfl
  | .decimal d => noDuplicate_serializeDecimal d
  | .tuple vs => noDuplicate_memcomparableEncodeAll vs
  | .null | .int8 _ | .int16 _ | .int32 _ | .int64 _ | .uInt8 _ | .uInt16 _ | .uInt32 _
  | .uInt64 _ | .date32 _ | .date64 _ | .time32 _ _ | .time64 _ _ _ | .utf8 _ _ _ | .boolean _
  | .float32 _ | .float64 _ => noDuplicate_ok _

theorem noDuplicate_memcomparableEncodeAll :
    ∀ vs : List DataValue, NoDuplicate (memcomparableEncodeAll vs)
  | [] => noDuplicate_ok _
  | v :: vs =>
    (noDuplicate_tagged (noDuplicate_memcomparableBody v)).bind fun _ =>
      (noDuplicate_memcomparableEncodeAll vs).bind fun _ => noDuplicate_ok _

end

theorem noDuplicate_memcomparableEncode (v : DataValue) : NoDuplicate v.memcomparableEncode := by
  unfold memcomparableEncode memcomparableEncodeWithNullOrder
  exact noDuplicate_tagged (noDuplicate_memcomparableBody v)

theorem noDuplicate_writeLen (n : Nat) : NoDuplicate (writeLen n) := by
  unfold writeLen
  split
  · exact noDuplicate_ok _
  · exact noDuplicate_error rfl

variable [DecimalLayout]

mutual

theorem noDuplicate_encodeReferenceValue :
    ∀ v : DataValue, NoDuplicate (encodeReferenceValue v)
  | .parameter _ _ => noDuplicate_error rfl
  | .utf8 _ _ _ =>
    ((noDuplicate_writeLen _).bind fun _ => noDuplicate_ok _).bind fun _ => noDuplicate_ok _
  | .tuple vs => (noDuplicate_writeLen _).bind fun _ =>
    (noDuplicate_encodeReferenceValues vs).bind fun _ => noDuplicate_ok _
  | .null | .int8 _ | .int16 _ | .int32 _ | .int64 _ | .uInt8 _ | .uInt16 _ | .uInt32 _
  | .uInt64 _ | .date32 _ | .date64 _ | .time32 _ _ | .time64 _ _ _ | .decimal _ | .boolean _
  | .float32 _ | .float64 _ => noDuplicate_ok _

theorem noDuplicate_encodeReferenceValues :
    ∀ vs : List DataValue, NoDuplicate (encodeReferenceValues vs)
  | [] => noDuplicate_ok _
  | v :: vs => (noDuplicate_encodeReferenceValue v).bind fun _ =>
    (noDuplicate_encodeReferenceValues vs).bind fun _ => noDuplicate_ok _

end

mutual

/-- A value that can be written as a reference has a key. -/
theorem memcomparableBody_of_reference : ∀ {v : DataValue} {bytes : Bytes},
    v.encodeReferenceValue = .ok bytes → ∃ a, memcomparableBody v = .ok a
  | .tuple _, _, h => by
    obtain ⟨_, _, -, hvs, -⟩ := bind_bind_eq_ok.mp h
    exact memcomparableEncodeAll_of_reference hvs
  | .decimal d, _, _ => (Fits.decimal d none none).body_ok
  | .null, _, _ | .int8 _, _, _ | .int16 _, _, _ | .int32 _, _, _ | .int64 _, _, _
  | .uInt8 _, _, _ | .uInt16 _, _, _ | .uInt32 _, _, _ | .uInt64 _, _, _ | .date32 _, _, _
  | .date64 _, _, _ | .time32 _ _, _, _ | .time64 _ _ _, _, _ | .utf8 _ _ _, _, _
  | .boolean _, _, _ | .float32 _, _, _ | .float64 _, _, _ => ⟨_, rfl⟩

theorem memcomparableEncodeAll_of_reference : ∀ {vs : List DataValue} {bytes : Bytes},
    encodeReferenceValues vs = .ok bytes → ∃ a, memcomparableEncodeAll vs = .ok a
  | [], _, _ => ⟨_, rfl⟩
  | v :: vs, _, h => by
    obtain ⟨_, _, hv, hvs, -⟩ := bind_bind_eq_ok.mp h
    obtain ⟨a, ha⟩ := memcomparableBody_of_reference hv
    obtain ⟨b, hb⟩ := memcomparableEncodeAll_of_reference hvs
    rw [memcomparableEncodeAll, hb, ha, tagged]
    cases v.isNull <;> exact ⟨_, rfl⟩

end

theorem memcomparableEncode_of_reference {v : DataValue} {bytes : Bytes}
    (h : v.encodeReferenceValue = .ok bytes) : ∃ a, v.memcomparableEncode = .ok a := by
  obtain ⟨a, ha⟩ := memcomparableBody_of_reference h
  rw [memcomparableEncode, memcomparableEncodeWithNullOrder, ha, tagged]
  cases v.isNull <;> exact ⟨_, rfl⟩

end DataValue

section Catalog

theorem noDuplicate_valueAt (values : List DataValue) (i : Nat) :
    NoDuplicate (Tuple.valueAt values i) := by
  unfold Tuple.valueAt
  split
  · exact noDuplicate_ok _
  · exact noDuplicate_error rfl

theorem noDuplicate_primaryProjection (is : List Nat) (values : List DataValue) :
    NoDuplicate (primaryProjection is values) := by
  unfold primaryProjection
  split
  · exact (noDuplicate_mapM (noDuplicate_valueAt values) is).bind fun _ => noDuplicate_ok _
  · split
    · exact noDuplicate_valueAt values _
    · exact noDuplicate_error rfl

theorem noDuplicate_serializable (t : LogicalType) : NoDuplicate t.serializable := by
  cases t <;> first | exact noDuplicate_ok _ | exact noDuplicate_error rfl

theorem noDuplicate_serializers (table : TableCatalog) : NoDuplicate table.serializers :=
  noDuplicate_mapM noDuplicate_serializable _

theorem noDuplicate_dmlSnapshot (table : TableCatalog) : NoDuplicate table.dmlSnapshot := by
  refine (noDuplicate_mapM (fun index => ?_) _).bind fun _ => noDuplicate_ok _
  refine (noDuplicate_mapM (fun columnId => ?_) _).bind fun _ => noDuplicate_ok _
  split
  · exact noDuplicate_ok _
  · exact noDuplicate_error rfl

mutual

theorem noDuplicate_checkPrimaryKey :
    ∀ (v : DataValue) (n : Nat), NoDuplicate (checkPrimaryKey v n)
  | .tuple vs, n => by
    rw [checkPrimaryKey]
    split
    · exact noDuplicate_error rfl
    · exact noDuplicate_checkPrimaryKeys vs (n + 1)
  | .parameter _ _, _ | .null, _ | .int8 _, _ | .int16 _, _ | .int32 _, _ | .int64 _, _
  | .uInt8 _, _ | .uInt16 _, _ | .uInt32 _, _ | .uInt64 _, _ | .date32 _, _ | .date64 _, _
  | .time32 _ _, _ | .time64 _ _ _, _ | .decimal _, _ | .boolean _, _ | .utf8 _ _ _, _
  | .float32 _, _ | .float64 _, _ => by
    rw [checkPrimaryKey]
    · split
      · exact noDuplicate_error rfl
      · split
        · exact noDuplicate_error rfl
        · unfold checkPrimaryKeyType
          split <;> first | exact noDuplicate_ok _ | exact noDuplicate_error rfl
    · nofun

theorem noDuplicate_checkPrimaryKeys :
    ∀ (vs : List DataValue) (n : Nat), NoDuplicate (checkPrimaryKeys vs n)
  | [], _ => noDuplicate_ok _
  | v :: vs, n => (noDuplicate_checkPrimaryKey v n).bind fun _ => noDuplicate_checkPrimaryKeys vs n

end

theorem noDuplicate_withTuple {tableName : String} {id : DataValue} {value : Result Bytes}
    (h : NoDuplicate value) : NoDuplicate (withTuple tableName id value) :=
  (noDuplicate_checkPrimaryKey id 0).bind fun _ =>
    (noDuplicate_memcomparableEncode id).bind fun _ => h.bind fun _ => noDuplicate_ok _

end Catalog

section Writes

variable [DecimalLayout] {store : Store} {tableName : String} {index : Index} {id : DataValue}
  {tuple : Tuple} {serializers : List TupleValueSerializableImpl} {isOverwrite : Bool} {e : Fault}

theorem noDuplicate_toRaw (s : TupleValueSerializableImpl) (v : DataValue) :
    NoDuplicate (s.toRaw v) := by
  unfold TupleValueSerializableImpl.toRaw charToRaw
  split <;> try first | exact noDuplicate_ok _ | exact noDuplicate_error rfl
  dsimp only
  split
  · exact noDuplicate_ok _
  · split
    · exact noDuplicate_error rfl
    · exact noDuplicate_ok _

theorem noDuplicate_serializeTo (values : List DataValue)
    (serializers : List TupleValueSerializableImpl) :
    NoDuplicate (serializeTo values serializers) := by
  have hloop (l : List (DataValue × TupleValueSerializableImpl)) (i : Nat) (bytes : Bytes) :
      NoDuplicate (serializeLoop i l bytes) := by
    induction l generalizing i bytes with
    | nil => exact noDuplicate_ok _
    | cons p l ih =>
      obtain ⟨value, serializer⟩ := p
      rw [serializeLoop]
      split
      · exact ih _ _
      · exact (noDuplicate_toRaw serializer value).bind fun _ => ih _ _
  exact hloop _ _ _

theorem noDuplicate_withIndex : NoDuplicate (withIndex tableName index (some id)) := by
  refine (noDuplicate_memcomparableEncodeAll _).bind fun _ => ?_
  have hrow : NoDuplicate (indexRow index.ty (some id)) := by
    unfold indexRow
    split <;> first
      | exact noDuplicate_memcomparableEncode _
      | exact noDuplicate_ok _
  exact hrow.bind fun _ =>
    (noDuplicate_encodeReferenceValue id).bind fun _ => noDuplicate_ok _

/-- Adding an entry refuses a duplicate only in a unique index. -/
theorem addIndex_duplicate (h : store.addIndex tableName index id = .error e)
    (he : e.isDuplicate = true) : index.ty = .unique ∧ e = .error .duplicateUniqueValue ∧
      (∃ k, rowKey tableName id = .ok k) ∧ ∃ key value bytes,
        withIndex tableName index (some id) = .ok (key, value) ∧
        store.contents key = some bytes ∧ bytes ≠ value := by
  unfold Store.addIndex at h
  split at h
  · cases h
  · cases hw : withIndex tableName index (some id) with
    | error e' =>
      rw [hw] at h
      cases h
      rw [noDuplicate_withIndex _ hw] at he
      cases he
    | ok p =>
      rw [hw, ok_bind] at h
      dsimp only at h
      split at h
      · next bytes _ hstored =>
        split at h
        · next hne =>
          cases h
          refine ⟨by assumption, rfl, ?_, p.1, p.2, bytes, rfl, hstored, hne⟩
          obtain ⟨_, _, -, -, hw⟩ := bind_bind_eq_ok.mp hw
          obtain ⟨_, hid, -⟩ := bind_eq_ok.mp hw
          obtain ⟨a, ha⟩ := memcomparableEncode_of_reference hid
          exact ⟨_, rowKey_eq_ok.mpr ⟨a, ha, rfl⟩⟩
        · cases h
      · cases h

/-- Writing a row refuses a duplicate only of its primary key. -/
theorem appendTuple_duplicate
    (h : store.appendTuple tableName tuple serializers isOverwrite = .error e)
    (he : e.isDuplicate = true) : e = .error .duplicatePrimaryKey ∧ ∃ id k bytes,
      tuple.pk = some id ∧ rowKey tableName id = .ok k ∧
      store.space tableName none k = some bytes := by
  unfold Store.appendTuple at h
  split at h
  · cases h
    cases he
  · next id hid =>
    cases hw : withTuple tableName id (serializeTo tuple.values serializers) with
    | error e' =>
      rw [hw] at h
      cases h
      rw [noDuplicate_withTuple (noDuplicate_serializeTo _ _) _ hw] at he
      cases he
    | ok p =>
      rw [hw, ok_bind] at h
      dsimp only at h
      split at h
      · next hdup =>
        cases h
        obtain ⟨-, hu⟩ := withTuple_eq_ok.mp hw
        obtain ⟨a, ha, -, hk⟩ := withTupleUnchecked_eq_ok hu
        have hkey := rowKey_eq_ok.mpr ⟨a, ha, hk⟩
        obtain ⟨bytes, hbytes⟩ : ∃ bytes, store[p.1]? = some bytes := by
          rw [← Option.isSome_iff_exists, Std.TreeMap.isSome_getElem?_eq_contains]
          exact (Bool.and_eq_true_iff.mp hdup).2
        refine ⟨rfl, id, p.1, bytes, hid, hkey, ?_⟩
        rw [Store.space, Region.region_eq (isPrefix_rowKey hkey)]
        exact hbytes
      · cases h

end Writes

end KiteSQL
