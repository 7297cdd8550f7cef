import KiteSQL.Execution.RowSound

/-! INSERT and DELETE statements, row by row. -/
namespace KiteSQL

open TableCodec Function IndexedRows TableCatalog Stateful List Result ColumnCatalog

section Build

variable [Conversions] {op : Insert} {columns : List ColumnCatalog} {column : ColumnCatalog}
  {map : MappingKey → Option DataValue} {values : List DataValue} {v : DataValue}

/-- What a column requires of a value. -/
def ColumnCatalog.Admits (v : DataValue) (column : ColumnCatalog) : Prop :=
  v.checkLen column.datatype = .ok () ∧ (v.isNull = true → column.nullable = true)

theorem Insert.columnValue_spec (h : op.columnValue map column = .ok v) :
    v.declaresChar column.datatype ∧ Admits v column := by
  obtain ⟨w, x, -, hx, h⟩ := bind_bind_eq_ok.mp h
  obtain ⟨_, hlen, h⟩ := bind_eq_ok.mp h
  split at h
  · cases h
  · next hn =>
    cases h
    refine ⟨DataValue.cast_declaresChar hx, hlen, fun hnull => ?_⟩
    simpa [hnull] using hn

theorem Insert.rowValues_spec (h : op.rowValues columns map = .ok values) :
    Forall₂ (fun v column => v.declaresChar column.datatype ∧ Admits v column)
      values columns := by
  induction columns generalizing map values with
  | nil =>
    cases h
    exact .nil
  | cons column columns ih =>
    obtain ⟨v, vs, hv, hvs, h⟩ := bind_bind_eq_ok.mp h
    cases h
    exact .cons (columnValue_spec hv) (ih hvs)

theorem Insert.buildRow_spec {row : List DataValue} (h : op.buildRow columns row = .ok values) :
    Forall₂ (fun v column => v.declaresChar column.datatype ∧ Admits v column)
      values columns := by
  obtain ⟨map, -, h⟩ := bind_eq_ok.mp h
  exact rowValues_spec h

end Build

theorem TableCatalog.forall₂_columnTypes {P : DataValue → LogicalType → Prop}
    {table : TableCatalog} {values : List DataValue} :
    Forall₂ P values table.columnTypes ↔
      Forall₂ (fun v column => P v column.datatype) values table.columns := by
  rw [TableCatalog.columnTypes, forall₂_map_right_iff]

variable [DecimalLayout] {table : TableCatalog} {store store' : Store}
  {templates : List (IndexMeta × List Nat)} {item : Result Tuple} {input : List (Result Tuple)}
  {n m : Nat} {ss : List TupleValueSerializableImpl}

namespace Insert

variable [Conversions] {op : Insert}

/-- No text of the new row is longer than a length field can say. -/
def Short (op : Insert) (table : TableCatalog) (item : Result Tuple) : Prop :=
  ∀ tuple values, item = .ok tuple → op.buildRow table.columns tuple.values = .ok values →
    ∀ v ∈ values, v.writtenLen < 2 ^ 32

/-- The new row loses no trailing spaces in its primary key. -/
def KeepsKeys (op : Insert) (table : TableCatalog) (item : Result Tuple) : Prop :=
  ∀ tuple values, item = .ok tuple → op.buildRow table.columns tuple.values = .ok values →
    table.KeepsKey values

/-- What an INSERT does with one input row. -/
theorem insertRow_eq_ok (hw : table.WellFormed) (ht : table.indexTemplates = .ok templates)
    (h : op.insertRow table.name ⟨table.columns, table.primaryKeyIndices, templates⟩ ss n item
      store = (.ok m, store')) :
    ∃ tuple values id k bytes, item = .ok tuple ∧
      op.buildRow table.columns tuple.values = .ok values ∧
      Tuple.primaryProjection table.primaryKeyIndices values = .ok id ∧
      rowKey table.name id = .ok k ∧ Tuple.serializeTo values ss = .ok bytes ∧
      RowInsert table values op.isOverwrite k bytes store store' := by
  obtain ⟨tuple, hitem, h⟩ := liftM_bind_eq_ok.mp h
  obtain ⟨values, hvalues, h⟩ := liftM_bind_eq_ok.mp h
  obtain ⟨_, hwrite, -⟩ := bind_pure_eq_ok.mp h
  obtain ⟨id, k, bytes, hid, -, hk, hb, hrow⟩ := writeRow_spec hw ht hwrite
  exact ⟨tuple, values, id, k, bytes, hitem, hvalues, hid, hk, hb, hrow⟩

theorem insertRow_spec (hw : table.WellFormed) (ht : table.indexTemplates = .ok templates)
    (hs : table.serializers = .ok ss) (hshort : op.Short table item)
    (h : op.insertRow table.name ⟨table.columns, table.primaryKeyIndices, templates⟩ ss n item
      store = (.ok m, store')) :
    ∃ tuple values id k bytes, item = .ok tuple ∧
      op.buildRow table.columns tuple.values = .ok values ∧
      Tuple.primaryProjection table.primaryKeyIndices values = .ok id ∧
      rowKey table.name id = .ok k ∧ table.Stores values bytes ∧
      RowInsert table values op.isOverwrite k bytes store store' := by
  obtain ⟨tuple, values, id, k, bytes, hitem, hvalues, hid, hk, hb, hrow⟩ :=
    insertRow_eq_ok hw ht h
  refine ⟨tuple, values, id, k, bytes, hitem, hvalues, hid, hk, ?_, hrow⟩
  refine stores_of_serializeTo hs (forall₂_columnTypes.mpr ?_)
    (hshort tuple values hitem hvalues) hb
  exact (buildRow_spec hvalues).imp fun _ _ hv => hv.1

theorem insertTable_eq_ok (h : op.insertTable table input store = (.ok n, store')) :
    ∃ templates ss, table.indexTemplates = .ok templates ∧ table.serializers = .ok ss ∧
      (input.foldlM (op.insertRow table.name
        ⟨table.columns, table.primaryKeyIndices, templates⟩ ss) 0) store = (.ok n, store') := by
  obtain ⟨snapshot, hsnap, h⟩ := liftM_bind_eq_ok.mp h
  obtain ⟨templates, ht, hsnap⟩ := bind_eq_ok.mp hsnap
  cases hsnap
  split at h
  · cases (liftM_eq.mp h).1
  · obtain ⟨ss, hs, h⟩ := liftM_bind_eq_ok.mp h
    exact ⟨templates, ss, ht, hs, h⟩

/-- An INSERT without OVERWRITE keeps the table sound when, and only when, no new row loses
trailing spaces in its primary key. -/
theorem insertTable_sound_iff (hw : table.WellFormed) (hchar : table.CharFree)
    (ho : op.isOverwrite = false) (hshort : ∀ item ∈ input, op.Short table item)
    (hsound : table.Sound store) (h : op.insertTable table input store = (.ok n, store')) :
    table.Sound store' ↔ ∀ item ∈ input, op.KeepsKeys table item := by
  obtain ⟨templates, ss, ht, hs, hloop⟩ := insertTable_eq_ok h
  have hrun := foldlM_dichotomy
    (I := fun rest s => table.Sound s ∧ ∀ item ∈ rest, op.Short table item)
    (F := fun _ s => ∃ k bytes, s.space table.name none k = some bytes ∧ ¬ table.Keyed k bytes)
    (C := op.KeepsKeys table) hloop ?_ ?_ ?_ ⟨hsound, hshort⟩
  · rcases hrun with ⟨hall, hgood, -⟩ | ⟨⟨item, hmem, hbad⟩, k, bytes, hrow, hkey⟩
    · exact ⟨fun _ => hall, fun _ => hgood⟩
    · refine ⟨fun hgood => absurd (hgood.keyed k bytes hrow) hkey, fun hall => ?_⟩
      exact absurd (hall item hmem) hbad
  · rintro item rest n s m t ⟨hsd, hsh⟩ hstep hkeeps
    rw [forall_mem_cons] at hsh
    obtain ⟨tuple, values, id, k, bytes, hitem, hvalues, hid, hk, hst, hrow⟩ :=
      insertRow_spec hw ht hs hsh.1 hstep
    rw [ho] at hrow
    refine ⟨hrow.sound hsd hst hchar ?_, hsh.2⟩
    exact (keyed_iff hs hst.fits hst.read hid hk).mpr (hkeeps tuple values hitem hvalues)
  · rintro item rest n s m t ⟨hsd, hsh⟩ hstep hkeeps
    rw [forall_mem_cons] at hsh
    obtain ⟨tuple, values, id, k, bytes, hitem, hvalues, hid, hk, hst, hrow⟩ :=
      insertRow_spec hw ht hs hsh.1 hstep
    refine ⟨k, bytes, by rw [hrow.rows, update_self], fun hkey => hkeeps ?_⟩
    intro tuple' values' hitem' hvalues'
    rw [hitem] at hitem'
    cases hitem'
    rw [hvalues] at hvalues'
    cases hvalues'
    exact (keyed_iff hs hst.fits hst.read hid hk).mp hkey
  · rintro item rest n s m t ⟨k, bytes, hrow, hkey⟩ hstep
    obtain ⟨_, _, _, k', _, -, -, -, -, -, hins⟩ := insertRow_eq_ok hw ht hstep
    refine ⟨k, bytes, ?_, hkey⟩
    rw [hins.rows, update_of_ne, hrow]
    rintro rfl
    rw [hins.free ho] at hrow
    cases hrow

end Insert

end KiteSQL
