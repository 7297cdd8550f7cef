import KiteSQL.Lib.IndexedRows
import KiteSQL.Lib.Region
import KiteSQL.Storage.Transaction
import KiteSQL.Types.KeyEq

/-! The rows and the index entries of one table inside the store, and when its indexes are exact. -/
namespace KiteSQL

open TableCodec Region Function Result DataValue Tuple List Store IndexMeta Traverse Endian

/-- What the keys of a table's rows, or of one of its indexes, start with. -/
def spacePrefix (tableName : String) : Option UInt32 → Bytes
  | none => tuplePrefix tableName boundMinTag
  | some indexId => indexPrefix tableName indexId boundMinTag

namespace Store

def contents (store : Store) (key : Bytes) : Option Bytes := store[key]?

/-- The stored rows of a table, or the stored entries of one of its indexes. -/
def space (store : Store) (tableName : String) (part : Option UInt32) : Bytes → Option Bytes :=
  region (spacePrefix tableName part) store.contents

variable {store store' : Store} {key bytes k : Bytes} {tableName : String} {o : Option Bytes}
  {part : Option UInt32}

theorem contents_insert :
    contents (store.insert key bytes) = update store.contents key (some bytes) := by
  funext k
  rw [contents, Std.TreeMap.getElem?_insert]
  by_cases hk : k = key
  · subst hk
    simp
  · rw [update_of_ne hk, if_neg]
    · rfl
    · simpa [Std.LawfulEqCmp.compare_eq_iff_eq] using Ne.symm hk

theorem contents_erase : contents (store.erase key) = update store.contents key none := by
  funext k
  rw [contents, Std.TreeMap.getElem?_erase]
  by_cases hk : k = key
  · subst hk
    simp
  · rw [update_of_ne hk, if_neg]
    · rfl
    · simpa [Std.LawfulEqCmp.compare_eq_iff_eq] using Ne.symm hk

theorem space_empty (tableName : String) (part : Option UInt32) :
    space ∅ tableName part = fun _ => none := by
  funext k
  unfold space region
  split <;> simp [contents]

end Store

variable {store store' : Store} {key bytes k : Bytes} {tableName : String} {o : Option Bytes}
  {part part' : Option UInt32}

theorem not_tuple_index {id : UInt32} (h : spacePrefix tableName none <+: k)
    (h' : spacePrefix tableName (some id) <+: k) : False := by
  have hp := prefix_of_prefix_length_le h h' (by
    simp only [spacePrefix, length_tuplePrefix, length_indexPrefix]
    omega)
  simp only [spacePrefix, tuplePrefix, indexPrefix, writeKeyPrefix, append_assoc] at hp
  rw [prefix_append_right_inj] at hp
  simp at hp

/-- The key spaces of a table do not overlap. -/
theorem spacePrefix_injective (h : spacePrefix tableName part <+: k)
    (h' : spacePrefix tableName part' <+: k) : part = part' := by
  cases part with
  | none =>
    cases part' with
    | none => rfl
    | some id' => exact (not_tuple_index h h').elim
  | some id =>
    cases part' with
    | none => exact (not_tuple_index h' h).elim
    | some id' =>
      have hp := (prefix_of_prefix_length_le h h' (by simp [spacePrefix])).eq_of_length
        (by simp [spacePrefix])
      simp only [spacePrefix, indexPrefix, append_cancel_left_eq, cons.injEq, true_and,
        append_cancel_right_eq] at hp
      have hid := congrArg fromLeBytes hp
      rw [fromLeBytes_toLeBytes id.toNat_lt, fromLeBytes_toLeBytes id'.toNat_lt]
        at hid
      rw [UInt32.toNat_inj.mp hid]

/-- A write changes the key space of its key and no other. -/
theorem space_update (part : Option UInt32) (h : store'.contents = update store.contents key o)
    (hk : spacePrefix tableName part <+: key) :
    store'.space tableName part = update (store.space tableName part) key o ∧
      ∀ part', part' ≠ part → store'.space tableName part' = store.space tableName part' := by
  refine ⟨?_, fun part' hne => ?_⟩
  · rw [space, h, region_update_of_mem hk]
    rfl
  · rw [space, h, region_update_of_not_mem fun hk' => hne (spacePrefix_injective hk' hk)]
    rfl

/-- The key of the row with an id. -/
def rowKey (tableName : String) (tupleId : DataValue) : Result Bytes := do
  let (key, _) ← withTupleUnchecked tableName tupleId (.ok [])
  return key

/-- Where an index tells its entries apart by their rows: the encoded id inside a row key. -/
def keyRow (ty : IndexType) (key : Bytes) : Bytes :=
  match ty with
  | .normal | .composite => key.drop tupleKeyPrefixLen
  | _ => []

variable {id : DataValue} {index : Index} {value a : Bytes} {ty : IndexType}

theorem rowKey_eq_ok : rowKey tableName id = .ok key ↔
    ∃ a, id.memcomparableEncode = .ok a ∧ key = tuplePrefix tableName boundMinTag ++ a := by
  rw [rowKey, bind_eq_ok]
  constructor
  · rintro ⟨⟨key', b⟩, h, hk⟩
    obtain ⟨a, ha, -, rfl⟩ := withTupleUnchecked_eq_ok h
    cases hk
    exact ⟨a, ha, rfl⟩
  · rintro ⟨a, ha, rfl⟩
    refine ⟨(tuplePrefix tableName boundMinTag ++ a, []), ?_, rfl⟩
    rw [withTupleUnchecked, ha]
    rfl

theorem isPrefix_rowKey (h : rowKey tableName id = .ok key) :
    spacePrefix tableName none <+: key := by
  obtain ⟨a, -, rfl⟩ := rowKey_eq_ok.mp h
  exact prefix_append _ _

/-- Equal ids have one row key. -/
theorem rowKey_congr {id' : DataValue} (hc : checkPrimaryKey id 0 = .ok ()) (h : id.eq id' = true) :
    rowKey tableName id = rowKey tableName id' := by
  have he := memcomparableEncode_congr h
    (keepsNan_of_exact (checkPrimaryKey_exact hc).2)
  rw [rowKey, rowKey, withTupleUnchecked, withTupleUnchecked, he]

theorem indexRow_eq (h : rowKey tableName id = .ok key) :
    indexRow ty (some id) = .ok (keyRow ty key) := by
  obtain ⟨a, ha, rfl⟩ := rowKey_eq_ok.mp h
  cases ty with
  | primaryKey | unique => rfl
  | normal | composite =>
    change id.memcomparableEncode = _
    rw [ha, keyRow, drop_left' (length_tuplePrefix _)]

/-- Row keys with the same encoded id are the same. -/
theorem rowKey_eq_of_drop (h : spacePrefix tableName none <+: key)
    (h' : spacePrefix tableName none <+: k)
    (he : key.drop tupleKeyPrefixLen = k.drop tupleKeyPrefixLen) : key = k := by
  obtain ⟨a, rfl⟩ := h
  obtain ⟨b, rfl⟩ := h'
  rw [spacePrefix, drop_left' (length_tuplePrefix _), drop_left' (length_tuplePrefix _)] at he
  rw [he]

theorem appendTuple_eq_ok [DecimalLayout] {tuple : Tuple} {isOverwrite : Bool}
    {serializers : List TupleValueSerializableImpl}
    (h : store.appendTuple tableName tuple serializers isOverwrite = .ok store') :
    ∃ id key bytes, tuple.pk = some id ∧ checkPrimaryKey id 0 = .ok () ∧
      rowKey tableName id = .ok key ∧ serializeTo tuple.values serializers = .ok bytes ∧
      (isOverwrite = false → store.contents key = none) ∧
      store'.contents = update store.contents key (some bytes) := by
  unfold appendTuple at h
  split at h
  · cases h
  · next id hid =>
    obtain ⟨⟨key, bytes⟩, hw, h⟩ := bind_eq_ok.mp h
    obtain ⟨hc, hu⟩ := withTuple_eq_ok.mp hw
    obtain ⟨a, ha, hb, rfl⟩ := withTupleUnchecked_eq_ok hu
    refine ⟨id, _, bytes, hid, hc, rowKey_eq_ok.mpr ⟨a, ha, rfl⟩, hb, ?_⟩
    dsimp only at h
    split at h
    · cases h
    · next hn =>
      cases h
      refine ⟨fun ho => ?_, contents_insert⟩
      simpa [ho, contents] using hn

theorem removeTuple_eq_ok (h : store.removeTuple tableName id = .ok store') :
    ∃ key, rowKey tableName id = .ok key ∧
      store'.contents = update store.contents key none := by
  obtain ⟨⟨key, bytes⟩, hw, h⟩ := bind_eq_ok.mp h
  obtain ⟨-, hu⟩ := withTuple_eq_ok.mp hw
  obtain ⟨a, ha, -, rfl⟩ := withTupleUnchecked_eq_ok hu
  cases h
  exact ⟨_, rowKey_eq_ok.mpr ⟨a, ha, rfl⟩, contents_erase⟩

/-- What an index entry for the row under a key is made of. -/
theorem withIndex_key [DecimalLayout] (h : withIndex tableName index (some id) = .ok (key, value))
    (hk : rowKey tableName id = .ok k) :
    ∃ a, memcomparableEncodeAll index.values = .ok a ∧
      key = indexPrefix tableName index.id boundMinTag ++ (a ++ keyRow index.ty k) ∧
      id.encodeReferenceValue = .ok value := by
  obtain ⟨a, b, ha, hb, rfl, hv⟩ := withIndex_eq_ok h
  rw [indexRow_eq hk] at hb
  cases hb
  exact ⟨a, ha, rfl, hv⟩

theorem addIndex_eq_ok [DecimalLayout] (hty : ∀ b, index.ty ≠ .primaryKey b)
    (h : store.addIndex tableName index id = .ok store') :
    ∃ key value, withIndex tableName index (some id) = .ok (key, value) ∧
      store'.contents = update store.contents key (some value) ∧
      (index.ty = .unique → ∀ b, store.contents key = some b → b = value) := by
  unfold addIndex at h
  split at h
  · next b hb => exact absurd hb (hty b)
  · obtain ⟨⟨key, value⟩, hw, h⟩ := bind_eq_ok.mp h
    refine ⟨key, value, hw, ?_⟩
    dsimp only at h
    split at h
    · next bytes hu hs =>
      split at h
      · cases h
      · next he =>
        cases h
        rw [not_not] at he
        subst he
        refine ⟨?_, fun _ b hb => ?_⟩
        · rw [← show store.contents key = some bytes from hs, update_eq_self]
        · rw [contents, hs] at hb
          exact (Option.some.inj hb).symm
    · next hne =>
      cases h
      refine ⟨contents_insert, fun hu b hb => ?_⟩
      exact absurd hb (hne b hu)

theorem delIndex_eq_ok [DecimalLayout] (hty : ∀ b, index.ty ≠ .primaryKey b)
    (h : store.delIndex tableName index id = .ok store') :
    ∃ key value, withIndex tableName index (some id) = .ok (key, value) ∧
      store'.contents = update store.contents key none := by
  unfold delIndex at h
  split at h
  · next b hb => exact absurd hb (hty b)
  · obtain ⟨⟨key, value⟩, hw, h⟩ := bind_eq_ok.mp h
    cases h
    exact ⟨key, value, hw, contents_erase⟩

/-- At most one key of a part of a table was written. -/
def Store.WritesAt (tableName : String) (part : Option UInt32) (store store' : Store) : Prop :=
  ∃ key written, spacePrefix tableName part <+: key ∧
    store'.contents = update store.contents key written

theorem Store.writesAt_refl (tableName : String) (part : Option UInt32) (store : Store) :
    WritesAt tableName part store store :=
  ⟨_, store.contents _, prefix_rfl, (update_eq_self _ _).symm⟩

/-- The other indexes, and the rows, are left alone. -/
theorem Store.WritesAt.frame (h : WritesAt tableName part store store') (hne : part' ≠ part) :
    store'.space tableName part' = store.space tableName part' := by
  obtain ⟨key, written, hk, hs⟩ := h
  exact (space_update part hs hk).2 part' hne

theorem addIndex_writesAt [DecimalLayout] (h : store.addIndex tableName index id = .ok store') :
    WritesAt tableName (some index.id) store store' := by
  cases hty : index.ty with
  | primaryKey b =>
    simp only [addIndex, hty] at h
    cases h
    exact writesAt_refl ..
  | _ =>
    obtain ⟨key, value, hw, hs, -⟩ := addIndex_eq_ok (by simp [hty]) h
    obtain ⟨a, b, -, -, rfl, -⟩ := withIndex_eq_ok hw
    exact ⟨_, _, prefix_append _ _, hs⟩

theorem delIndex_writesAt [DecimalLayout] (h : store.delIndex tableName index id = .ok store') :
    WritesAt tableName (some index.id) store store' := by
  cases hty : index.ty with
  | primaryKey b =>
    simp only [delIndex, hty] at h
    cases h
    exact writesAt_refl ..
  | _ =>
    obtain ⟨key, value, hw, hs⟩ := delIndex_eq_ok (by simp [hty]) h
    obtain ⟨a, b, -, -, rfl, -⟩ := withIndex_eq_ok hw
    exact ⟨_, _, prefix_append _ _, hs⟩

/-- The key of an entry for encoded values and the row under a key. -/
def IndexMeta.entry (index : IndexMeta) (table : TableCatalog) (encoded key : Bytes) : Bytes :=
  indexPrefix table.name index.id boundMinTag ++ (encoded ++ keyRow index.ty key)

/-- The values of an index's columns in a row. -/
def IndexMeta.rowValues (index : IndexMeta) (table : TableCatalog) (values : List DataValue) :
    Result (List DataValue) := do
  let exprs ← index.columnExprs table
  exprs.mapM (Tuple.valueAt values)

/-- The types of an index's columns. -/
def IndexMeta.rowTypes (index : IndexMeta) (table : TableCatalog) : Result (List LogicalType) := do
  let exprs ← index.columnExprs table
  return exprs.map (table.columnTypes.getD · .sqlNull)

theorem IndexMeta.ty_ne_primaryKey {index : IndexMeta} (h : index.isPrimary = false) (b : Bool) :
    index.ty ≠ .primaryKey b := by
  intro hb
  simp [isPrimary, hb] at h

namespace TableCatalog

variable [DecimalLayout]

/-- The values of a stored row. -/
def readRow (table : TableCatalog) (bytes : Bytes) : Result (List DataValue) := do
  let deserializers ← table.serializers
  Tuple.deserializeFromInto deserializers bytes table.columns.length

/-- The key of the index entry that the row under a key has. -/
def entryKey (table : TableCatalog) (index : IndexMeta) (key bytes : Bytes) : Result Bytes := do
  let values ← table.readRow bytes
  let indexValues ← index.rowValues table values
  let encoded ← DataValue.memcomparableEncodeAll indexValues
  return index.entry table encoded key

/-- The key of the row that an index entry points to. -/
def namedKey (table : TableCatalog) (bytes : Bytes) : Result Bytes := do
  let tupleId ← decodeIndex bytes
  rowKey table.name tupleId

def scheme (table : TableCatalog) (index : IndexMeta) :
    IndexedRows.Scheme Bytes Bytes Bytes Bytes where
  entry key bytes := (table.entryKey index key bytes).toOption
  names bytes := (table.namedKey bytes).toOption

/-- Every secondary index holds precisely one entry per row, made of the row's index values and
its primary key. -/
def IndexesExact (table : TableCatalog) (store : Store) : Prop :=
  ∀ index ∈ table.indexes, index.isPrimary = false →
    IndexedRows.Exact (table.scheme index) (store.space table.name none)
      (store.space table.name (some index.id))

/-- Every row can be read and stands under the key of its primary key. -/
def RowsKeyed (table : TableCatalog) (store : Store) : Prop :=
  ∀ key bytes, store.space table.name none key = some bytes → ∃ values id,
    table.readRow bytes = .ok values ∧
    Tuple.primaryProjection table.primaryKeyIndices values = .ok id ∧
    rowKey table.name id = .ok key

/-- An index entry that was made for the row under a key, from values of the index's types. -/
def Owns (table : TableCatalog) (index : IndexMeta) (key entry : Bytes) : Prop :=
  ∃ types values encoded, index.rowTypes table = .ok types ∧
    DataValue.Fits (.tuple values) (.tuple types) ∧
    DataValue.memcomparableEncodeAll values = .ok encoded ∧
    entry = index.entry table encoded key

/-- Every entry of an index was made for the row it points to. -/
def Owned (table : TableCatalog) (index : IndexMeta) (entries : Bytes → Option Bytes) : Prop :=
  ∀ entry bytes, entries entry = some bytes →
    ∃ key, (table.scheme index).names bytes = some key ∧ table.Owns index key entry

end TableCatalog

namespace TableCatalog

variable {table : TableCatalog} {index : IndexMeta} {k k' e e' : Bytes} {values : List DataValue}
  {vs ws : List DataValue} {ts : List LogicalType} {P : DataValue → LogicalType → Prop} {i : Nat}
  {v : DataValue} {is : List Nat}

theorem toOption_eq_some {α : Type} {x : Result α} {y : α} : x.toOption = some y ↔ x = .ok y := by
  cases x <;> simp [Except.toOption]

theorem valueAt_eq_ok : Tuple.valueAt vs i = .ok v ↔ vs[i]? = some v := by
  unfold Tuple.valueAt
  split <;> simp_all

theorem forall₂_valueAt (h : Forall₂ P vs ts) (hv : Tuple.valueAt vs i = .ok v) :
    P v (ts.getD i .sqlNull) := by
  rw [valueAt_eq_ok] at hv
  induction h generalizing i with
  | nil => simp at hv
  | cons hp _ ih =>
    cases i with
    | zero =>
      cases hv
      exact hp
    | succ i => exact ih hv

theorem forall₂_mapM_valueAt (h : Forall₂ P vs ts) (hw : is.mapM (Tuple.valueAt vs) = .ok ws) :
    Forall₂ P ws (is.map (ts.getD · .sqlNull)) := by
  induction is generalizing ws with
  | nil =>
    cases hw
    exact .nil
  | cons i is ih =>
    obtain ⟨w, ws, hv, hws, rfl⟩ := mapM_cons_eq_ok.mp hw
    exact .cons (forall₂_valueAt h hv) (ih hws)

theorem valueAt_keptAll (hlen : vs.length = ts.length) (hv : Tuple.valueAt vs i = .ok v) :
    Tuple.valueAt (keptAll vs ts) i = .ok (v.kept (ts.getD i .sqlNull)) := by
  rw [valueAt_eq_ok] at hv ⊢
  induction vs generalizing ts i with
  | nil => simp at hv
  | cons w vs ih =>
    obtain _ | ⟨t, ts⟩ := ts
    · cases hlen
    · cases i with
      | zero =>
        cases hv
        rfl
      | succ i => exact ih (by simpa using hlen) hv

theorem mapM_valueAt_keptAll (hlen : vs.length = ts.length)
    (hw : is.mapM (Tuple.valueAt vs) = .ok ws) :
    is.mapM (Tuple.valueAt (keptAll vs ts)) =
      .ok (keptAll ws (is.map (ts.getD · .sqlNull))) := by
  induction is generalizing ws with
  | nil =>
    cases hw
    rfl
  | cons i is ih =>
    obtain ⟨w, ws, hv, hws, rfl⟩ := mapM_cons_eq_ok.mp hw
    rw [mapM_cons, ih hws, valueAt_keptAll hlen hv]
    rfl

/-- The index values of a row have the index's types, also as the columns keep them. -/
theorem rowValues_typed (h : Forall₂ P values table.columnTypes)
    (hw : index.rowValues table values = .ok ws) :
    ∃ types, index.rowTypes table = .ok types ∧ Forall₂ P ws types ∧
      index.rowValues table (keptAll values table.columnTypes) =
        .ok (keptAll ws types) := by
  obtain ⟨exprs, he, hw⟩ := bind_eq_ok.mp hw
  refine ⟨exprs.map (table.columnTypes.getD · .sqlNull), ?_, forall₂_mapM_valueAt h hw, ?_⟩
  · rw [rowTypes, he]
    rfl
  · rw [rowValues, he, ok_bind, mapM_valueAt_keptAll h.length_eq hw]

theorem forall₂_serializable {ss : List TupleValueSerializableImpl} (h : Forall₂ P vs ts)
    (hs : ts.mapM LogicalType.serializable = .ok ss) :
    Forall₂ (fun v t => P v t ∧ ∃ s, LogicalType.serializable t = .ok s) vs ts := by
  induction h generalizing ss with
  | nil => exact .nil
  | cons hv _ ih =>
    obtain ⟨s, ss, hst, hss, rfl⟩ := mapM_cons_eq_ok.mp hs
    exact .cons ⟨hv, s, hst⟩ (ih hss)

theorem isPrefix_entry (index : IndexMeta) (table : TableCatalog) (a k : Bytes) :
    spacePrefix table.name (some index.id) <+: index.entry table a k :=
  prefix_append _ _

/-- An entry of an index that admits equal values was made for one row only. -/
theorem Owns.key_eq (h : table.Owns index k e) (h' : table.Owns index k' e)
    (hty : index.isPrimary = false) (hu : index.ty ≠ .unique)
    (hk : spacePrefix table.name none <+: k) (hk' : spacePrefix table.name none <+: k') :
    k = k' := by
  obtain ⟨types, ws, a, ht, hf, ha, he⟩ := h
  obtain ⟨types', ws', a', ht', hf', ha', he'⟩ := h'
  rw [ht] at ht'
  cases ht'
  rw [he, entry, entry, append_cancel_left_eq] at he'
  obtain ⟨b, x, hb, hr, -⟩ := reads_memcomparableDecodeAll hf
  obtain ⟨b', x', hb', hr', -⟩ := reads_memcomparableDecodeAll hf'
  rw [ha] at hb
  rw [ha'] at hb'
  cases hb
  cases hb'
  have hread := hr (keyRow index.ty k)
  rw [he', hr'] at hread
  have hrow : keyRow index.ty k = keyRow index.ty k' :=
    (congrArg Prod.snd (Except.ok.inj hread)).symm
  refine rowKey_eq_of_drop hk hk' ?_
  unfold isPrimary at hty
  unfold keyRow at hrow
  cases hi : index.ty <;> simp_all

section Layout

variable [DecimalLayout] {ss : List TupleValueSerializableImpl} {entries : Bytes → Option Bytes}

theorem readRow_eq_ok (h : table.readRow bytes = .ok values) :
    Forall₂ HasType values table.columnTypes := by
  obtain ⟨ss, hs, h⟩ := bind_eq_ok.mp h
  have hlen : table.columns.length = table.columnTypes.length := by simp [columnTypes]
  rw [hlen] at h
  exact hasType_of_deserialize hs h

theorem entryKey_eq_ok : table.entryKey index k bytes = .ok e ↔
    ∃ values ws a, table.readRow bytes = .ok values ∧ index.rowValues table values = .ok ws ∧
      memcomparableEncodeAll ws = .ok a ∧ e = index.entry table a k := by
  simp only [entryKey, bind_eq_ok, pure_eq, Except.ok.injEq]
  constructor
  · rintro ⟨values, hv, ws, hw, a, ha, rfl⟩
    exact ⟨values, ws, a, hv, hw, ha, rfl⟩
  · rintro ⟨values, ws, a, hv, hw, ha, rfl⟩
    exact ⟨values, hv, ws, hw, a, ha, rfl⟩

/-- A row that was written is read as its columns keep it. -/
theorem readRow_serialized (hs : table.serializers = .ok ss)
    (hc : Forall₂ declaresChar values table.columnTypes)
    (hl : ∀ v ∈ values, v.writtenLen < 2 ^ 32) (hw : serializeTo values ss = .ok bytes) :
    table.readRow bytes = .ok (keptAll values table.columnTypes) := by
  have hlen : table.columns.length = table.columnTypes.length := by simp [columnTypes]
  rw [readRow, hs, ok_bind, hlen]
  exact deserialize_serialized hs hc hw hl

/-- A written row has the entry made from its values, unless an index column cuts spaces off. -/
theorem entryKey_serialized (hs : table.serializers = .ok ss)
    (hf : Forall₂ Fits values table.columnTypes)
    (hr : table.readRow bytes = .ok (keptAll values table.columnTypes))
    (hw : index.rowValues table values = .ok ws) (ha : memcomparableEncodeAll ws = .ok a)
    :
    ∃ types, index.rowTypes table = .ok types ∧
      (table.entryKey index k bytes = .ok (index.entry table a k) ↔
        Forall₂ keepsText ws types) := by
  obtain ⟨types, ht, hf, hk⟩ := rowValues_typed (forall₂_serializable hf hs) hw
  refine ⟨types, ht, ?_⟩
  rw [← memcomparableEncodeAll_kept_iff hf, ha, entryKey_eq_ok]
  constructor
  · rintro ⟨vs, ws', a', hv, hw', ha', he⟩
    rw [hr] at hv
    cases hv
    rw [hk] at hw'
    cases hw'
    rw [entry, entry, append_cancel_left_eq, append_cancel_right_eq] at he
    rw [ha', he]
  · intro he
    exact ⟨_, _, a, hr, hk, he, rfl⟩

theorem owns_of_entryKey (h : table.entryKey index k bytes = .ok e) : table.Owns index k e := by
  obtain ⟨values, ws, a, hv, hw, ha, rfl⟩ := entryKey_eq_ok.mp h
  obtain ⟨types, ht, hf, -⟩ := rowValues_typed (readRow_eq_ok hv) hw
  exact ⟨types, ws, a, ht, fits_tuple_iff.mpr (hf.imp fun _ _ h => h.fits), ha, rfl⟩

theorem names_eq_some : (table.scheme index).names bytes = some k ↔
    ∃ tupleId, decodeIndex bytes = .ok tupleId ∧ rowKey table.name tupleId = .ok k := by
  rw [scheme, toOption_eq_some, namedKey, bind_eq_ok]

theorem names_encoded (h : id.encodeReferenceValue = .ok bytes)
    (hk : rowKey table.name id = .ok k) : (table.scheme index).names bytes = some k := by
  refine names_eq_some.mpr ⟨id, ?_, hk⟩
  have hr := runReader_of_reads (reads_decodeReferenceValue h) []
  rwa [append_nil] at hr

theorem isPrefix_of_names (h : (table.scheme index).names bytes = some k) :
    spacePrefix table.name none <+: k := by
  obtain ⟨tupleId, -, hk⟩ := names_eq_some.mp h
  exact isPrefix_rowKey hk

theorem owned_of_exact {rows : Bytes → Option Bytes}
    (h : IndexedRows.Exact (table.scheme index) rows entries) : table.Owned index entries := by
  intro e bytes he
  obtain ⟨k, r, hn, -, hr⟩ := h.points e bytes he
  exact ⟨k, hn, owns_of_entryKey (toOption_eq_some.mp hr)⟩

/-- An entry about to be added is not there yet, or points to its row already. -/
theorem Owned.free (h : table.Owned index entries) (hp : index.isPrimary = false)
    (ho : table.Owns index k e) (hn : (table.scheme index).names value = some k)
    (hu : index.ty = .unique → ∀ b, entries e = some b → b = value) :
    ∀ v, entries e = some v → (table.scheme index).names v = some k := by
  intro v hv
  by_cases hty : index.ty = .unique
  · rw [hu hty v hv, hn]
  · obtain ⟨k', hn', ho'⟩ := h e v hv
    rw [hn', ho.key_eq ho' hp hty (isPrefix_of_names hn) (isPrefix_of_names hn')]

theorem addIndex_space (hp : index.isPrimary = false) (hk : rowKey table.name id = .ok k)
    (h : store.addIndex table.name ⟨index.id, ws, index.ty⟩ id = .ok store') :
    ∃ a value, memcomparableEncodeAll ws = .ok a ∧
      (table.scheme index).names value = some k ∧
      store'.space table.name (some index.id) =
        update (store.space table.name (some index.id)) (index.entry table a k) (some value) ∧
      (index.ty = .unique → ∀ b,
        store.space table.name (some index.id) (index.entry table a k) = some b → b = value) := by
  obtain ⟨key, value, hw, hs, hu⟩ := addIndex_eq_ok (index.ty_ne_primaryKey hp) h
  obtain ⟨a, ha, rfl, hv⟩ := withIndex_key hw hk
  refine ⟨a, value, ha, names_encoded hv hk, (space_update _ hs (isPrefix_entry ..)).1, ?_⟩
  intro hty b hb
  exact hu hty b (region_eq_some.mp hb).2

theorem delIndex_space (hp : index.isPrimary = false) (hk : rowKey table.name id = .ok k)
    (h : store.delIndex table.name ⟨index.id, ws, index.ty⟩ id = .ok store') :
    ∃ a, memcomparableEncodeAll ws = .ok a ∧
      store'.space table.name (some index.id) =
        update (store.space table.name (some index.id)) (index.entry table a k) none := by
  obtain ⟨key, value, hw, hs⟩ := delIndex_eq_ok (index.ty_ne_primaryKey hp) h
  obtain ⟨a, ha, rfl, hv⟩ := withIndex_key hw hk
  exact ⟨a, ha, (space_update _ hs (isPrefix_entry ..)).1⟩

end Layout

end TableCatalog

end KiteSQL
