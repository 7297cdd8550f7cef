import KiteSQL.Storage.IndexedTable

/-! The key of a row against the primary key of the row as it is read. -/
namespace KiteSQL.TableCatalog

open TableCodec Tuple DataValue List

variable {table : TableCatalog} {values : List DataValue} {id : DataValue} {k bytes : Bytes}
  {is : List Nat} {ts : List LogicalType} {ss : List TupleValueSerializableImpl} {index : IndexMeta}
  {a : Bytes}

/-- No primary key column of the row loses trailing spaces. -/
def KeepsKey (table : TableCatalog) (values : List DataValue) : Prop :=
  ∀ i ∈ table.primaryKeyIndices, ∀ v, values[i]? = some v →
    v.keepsText (table.columnTypes.getD i .sqlNull)

theorem forall₂_keepsText_iff {ws : List DataValue} (hw : is.mapM (Tuple.valueAt values) = .ok ws)
    : Forall₂ keepsText ws (is.map (ts.getD · .sqlNull)) ↔
      ∀ i ∈ is, ∀ v, values[i]? = some v → v.keepsText (ts.getD i .sqlNull) := by
  induction is generalizing ws with
  | nil =>
    cases hw
    simp
  | cons i is ih =>
    obtain ⟨w, ws, hv, hws, rfl⟩ := Traverse.mapM_cons_eq_ok.mp hw
    rw [valueAt_eq_ok] at hv
    rw [map_cons, forall₂_cons, ih hws, forall_mem_cons]
    simp [hv]

/-- The primary key of a row as it is read has the encoding of the one that was written, unless a
column cut spaces off. -/
theorem primaryProjection_kept (hf : Forall₂ Fits values ts)
    (hs : ts.mapM LogicalType.serializable = .ok ss) (hp : primaryProjection is values = .ok id) :
    ∃ id', primaryProjection is (keptAll values ts) = .ok id' ∧
      (id'.memcomparableEncode = id.memcomparableEncode ↔
        ∀ i ∈ is, ∀ v, values[i]? = some v → v.keepsText (ts.getD i .sqlNull)) := by
  unfold primaryProjection at hp ⊢
  split at hp
  · next hlen =>
    obtain ⟨ws, hw, hp⟩ := Result.bind_eq_ok.mp hp
    cases hp
    refine ⟨.tuple (keptAll ws (is.map (ts.getD · .sqlNull))), ?_, ?_⟩
    · rw [if_pos hlen, mapM_valueAt_keptAll hf.length_eq hw]
      rfl
    · rw [memcomparableEncode_tuple_inj, ← forall₂_keepsText_iff hw]
      exact memcomparableEncodeAll_kept_iff
        (forall₂_mapM_valueAt (forall₂_serializable hf hs) hw)
  · next hlen =>
    rw [if_neg hlen]
    obtain _ | ⟨i, _ | ⟨j, is⟩⟩ := is
    · cases hp
    · refine ⟨_, valueAt_keptAll hf.length_eq hp, ?_⟩
      obtain ⟨-, s, hst⟩ := forall₂_valueAt (forall₂_serializable hf hs) hp
      rw [memcomparableEncode_kept_iff hst]
      rw [valueAt_eq_ok] at hp
      simp [hp]
    · simp at hlen

/-- The key under which a row with these values goes. -/
def keyOf (table : TableCatalog) (values : List DataValue) : Result Bytes := do
  let id ← Tuple.primaryProjection table.primaryKeyIndices values
  rowKey table.name id

/-- The encoded index values of a row. -/
def indexKeyOf (table : TableCatalog) (index : IndexMeta) (values : List DataValue) :
    Result Bytes := do
  let indexValues ← index.rowValues table values
  DataValue.memcomparableEncodeAll indexValues

theorem entry_inj {b : Bytes} : index.entry table a k = index.entry table b k ↔ a = b := by
  simp [IndexMeta.entry]

theorem indexKeyOf_eq_ok :
    table.indexKeyOf index values = .ok a ↔ ∃ ws, index.rowValues table values = .ok ws ∧
      memcomparableEncodeAll ws = .ok a :=
  Result.bind_eq_ok

variable [DecimalLayout]

/-- A stored row has the entry that its index values encode to. -/
theorem scheme_entry_iff :
    (table.scheme index).entry k bytes = some (index.entry table a k) ↔
      ∃ old, table.readRow bytes = .ok old ∧ table.indexKeyOf index old = .ok a := by
  rw [scheme, toOption_eq_some, entryKey_eq_ok]
  constructor
  · rintro ⟨old, ws, b, hold, hw, hb, he⟩
    rw [entry_inj] at he
    subst he
    exact ⟨old, hold, indexKeyOf_eq_ok.mpr ⟨ws, hw, hb⟩⟩
  · rintro ⟨old, hold, ha⟩
    obtain ⟨ws, hw, ha⟩ := indexKeyOf_eq_ok.mp ha
    exact ⟨old, ws, a, hold, hw, ha, rfl⟩

/-- A row stands under the key of its primary key. -/
def Keyed (table : TableCatalog) (key bytes : Bytes) : Prop :=
  ∃ values id, table.readRow bytes = .ok values ∧
    Tuple.primaryProjection table.primaryKeyIndices values = .ok id ∧
    rowKey table.name id = .ok key

theorem keyed_iff (hs : table.serializers = .ok ss) (hf : Forall₂ Fits values table.columnTypes)
    (hr : table.readRow bytes = .ok (keptAll values table.columnTypes))
    (hp : primaryProjection table.primaryKeyIndices values = .ok id)
    (hk : rowKey table.name id = .ok k) : table.Keyed k bytes ↔ table.KeepsKey values := by
  obtain ⟨id', hp', hiff⟩ := primaryProjection_kept hf hs hp
  obtain ⟨a, ha, rfl⟩ := rowKey_eq_ok.mp hk
  rw [KeepsKey, ← hiff]
  constructor
  · rintro ⟨vs, x, hv, hx, hkx⟩
    rw [hr] at hv
    cases hv
    rw [hp'] at hx
    cases hx
    obtain ⟨b, hb, he⟩ := rowKey_eq_ok.mp hkx
    rw [ha, hb, append_cancel_left he]
  · intro he
    exact ⟨_, id', hr, hp', rowKey_eq_ok.mpr ⟨a, he.trans ha, rfl⟩⟩

end KiteSQL.TableCatalog
