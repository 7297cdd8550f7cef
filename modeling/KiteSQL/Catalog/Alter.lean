import KiteSQL.Catalog.Table
import KiteSQL.Lib.Traverse

/-! Changes to the catalog entry of a table. -/
namespace KiteSQL.TableCatalog

open List

/-- Of several columns with one name the map keeps the last. -/
def getColumnByName (table : TableCatalog) (name : String) : Option ColumnCatalog :=
  table.columns.reverse.find? fun column => column.name = name

def getColumnById (table : TableCatalog) (columnId : ColumnId) : Option ColumnCatalog :=
  table.columns.reverse.find? fun column => column.id = some columnId

def maxColumnId (table : TableCatalog) : ColumnId :=
  (table.columns.filterMap ColumnCatalog.id).foldl max 0

def addColumn (table : TableCatalog) (column : ColumnCatalog) :
    Result (TableCatalog × ColumnId) :=
  if (table.getColumnByName column.name).isSome then
    .error (.error (.duplicateColumn column.name))
  else if table.maxColumnId.toNat + 1 = 2 ^ 64 then .error (.error .overFlow)
  else
    let columnId := table.maxColumnId + 1
    let summary := { column.summary with relation := .table columnId table.name false }
    .ok ({ table with columns := table.columns ++ [{ column with summary := summary }] }, columnId)

/-- The type of an index over these columns. -/
def indexValueType (table : TableCatalog) (columnIds : List ColumnId) : Result LogicalType := do
  let valueTypes ← columnIds.mapM fun columnId =>
    match table.getColumnById columnId with
    | some column => .ok column.datatype
    | none => .error (.error (.columnNotFound (toString columnId)))
  match valueTypes with
  | [ty] => return ty
  | types => return .tuple types

/-- The id after that of the last index in the list. -/
def nextIndexId (table : TableCatalog) : UInt32 :=
  match table.indexes.getLast? with
  | some index => index.id + 1
  | none => 0

def addIndexMeta (table : TableCatalog) (name : String) (columnIds : List ColumnId)
    (ty : IndexType) : Result (TableCatalog × IndexMeta) :=
  if table.indexes.any fun index => index.name = name then
    .error (.error (.duplicateIndex name))
  else do
    let valueTy ← table.indexValueType columnIds
    let index := ⟨table.nextIndexId, columnIds, table.primaryKeyType, valueTy, name, ty⟩
    return ({ table with indexes := table.indexes ++ [index] }, index)

/-- `add_column` with its outcome unwrapped. -/
def pushColumn (table : TableCatalog) (column : ColumnCatalog) : Result TableCatalog :=
  match table.addColumn column with
  | .ok (table, _) => .ok table
  | .error _ => .error (.panic "called `Result::unwrap()` on an `Err` value")

def new (name : String) (columns : List ColumnCatalog) : Result TableCatalog :=
  if columns.isEmpty then .error (.error .columnsEmpty)
  else columns.foldlM pushColumn ⟨name, [], []⟩

def reload (name : String) (columns : List ColumnCatalog) (indexes : List IndexMeta) :
    Result TableCatalog :=
  if columns.any fun column => column.id.isNone then
    .error (.error (.invalidColumn "column does not belong to table"))
  else .ok ⟨name, columns, indexes⟩

variable {table table' : TableCatalog} {column c : ColumnCatalog} {columns : List ColumnCatalog}
  {columnId : ColumnId} {name : String} {ty : IndexType} {index : IndexMeta}
  {columnIds : List ColumnId}

theorem getColumnByName_eq_none :
    table.getColumnByName name = none ↔ ∀ c ∈ table.columns, c.name ≠ name := by
  simp [getColumnByName]

theorem getColumnById_isSome (h : c ∈ table.columns) (hid : c.id = some columnId) :
    ∃ c', table.getColumnById columnId = some c' := by
  rw [← Option.isSome_iff_exists, getColumnById, find?_isSome]
  exact ⟨c, by simpa using h, by simpa using hid⟩

theorem getElem?_of_mem_primaryKeyIndices {i : Nat} (h : i ∈ table.primaryKeyIndices) :
    ∃ c, table.columns[i]? = some c ∧ c.desc.primary.isSome = true := by
  simp only [primaryKeyIndices, mem_map, mem_insertionSort, mem_filterMap,
    Option.map_eq_some_iff] at h
  obtain ⟨_, ⟨⟨c, j⟩, hc, k, hk, rfl⟩, rfl⟩ := h
  exact ⟨c, mem_zipIdx_iff_getElem?.mp hc, by rw [hk]; rfl⟩

/-- The column as its new table lists it. -/
def placed (table : TableCatalog) (column : ColumnCatalog) : ColumnCatalog :=
  { column with summary := { column.summary with
      relation := .table (table.maxColumnId + 1) table.name false } }

theorem addColumn_eq_ok (h : table.addColumn column = .ok (table', columnId)) :
    (∀ c ∈ table.columns, c.name ≠ column.name) ∧ table.maxColumnId.toNat + 1 < 2 ^ 64 ∧
      columnId = table.maxColumnId + 1 ∧
      table' = { table with columns := table.columns ++ [table.placed column] } := by
  unfold addColumn at h
  split at h
  · cases h
  · next hname =>
    split at h
    · cases h
    · next hmax =>
      cases h
      rw [Bool.not_eq_true, Option.isSome_eq_false_iff, Option.isNone_iff_eq_none,
        getColumnByName_eq_none] at hname
      have hlt := UInt64.toNat_lt table.maxColumnId
      exact ⟨hname, by omega, rfl, rfl⟩

/-- The columns of a table carry ids and names of their own. -/
structure Placed (table : TableCatalog) : Prop where
  relation : ∀ c ∈ table.columns, ∃ columnId, c.summary.relation = .table columnId table.name false
  names : (table.columns.map (·.name)).Nodup

theorem Placed.addColumn (h : table.Placed)
    (ha : table.addColumn column = .ok (table', columnId)) : table'.Placed := by
  obtain ⟨hname, -, -, rfl⟩ := addColumn_eq_ok ha
  refine ⟨fun c hc => ?_, ?_⟩
  · rcases mem_append.mp hc with hc | hc
    · exact h.relation c hc
    · obtain rfl := mem_singleton.mp hc
      exact ⟨_, rfl⟩
  · rw [map_append, nodup_append]
    refine ⟨h.names, by simp, ?_⟩
    intro a ha b hb
    obtain ⟨c, hc, rfl⟩ := mem_map.mp ha
    obtain rfl : b = column.name := mem_singleton.mp hb
    exact hname c hc

theorem Placed.pushColumn (h : table.Placed) (ha : table.pushColumn column = .ok table') :
    table'.Placed ∧ table'.name = table.name ∧ table'.indexes = table.indexes := by
  unfold TableCatalog.pushColumn at ha
  split at ha
  · next columnId hadd =>
    cases ha
    refine ⟨h.addColumn hadd, ?_⟩
    obtain ⟨-, -, -, rfl⟩ := addColumn_eq_ok hadd
    exact ⟨rfl, rfl⟩
  · cases ha

theorem Placed.foldlM_pushColumn (h : table.Placed)
    (hf : columns.foldlM TableCatalog.pushColumn table = .ok table') :
    table'.Placed ∧ table'.name = table.name ∧ table'.indexes = table.indexes := by
  induction columns generalizing table with
  | nil =>
    cases hf
    exact ⟨h, rfl, rfl⟩
  | cons column columns ih =>
    rw [foldlM_cons] at hf
    obtain ⟨table₁, h₁, hf⟩ := Result.bind_eq_ok.mp hf
    obtain ⟨hp, hname, hindexes⟩ := h.pushColumn h₁
    obtain ⟨hp', hname', hindexes'⟩ := ih hp hf
    exact ⟨hp', hname'.trans hname, hindexes'.trans hindexes⟩

theorem new_eq_ok (h : new name columns = .ok table) :
    table.Placed ∧ table.name = name ∧ table.indexes = [] := by
  unfold new at h
  split at h
  · cases h
  · exact Placed.foldlM_pushColumn ⟨by simp, by simp⟩ h

theorem indexValueType_ok (h : ∀ columnId ∈ columnIds, ∃ c ∈ table.columns, c.id = some columnId) :
    ∃ ty, table.indexValueType columnIds = .ok ty := by
  have hmap : ∃ types, (columnIds.mapM fun columnId =>
      match table.getColumnById columnId with
      | some column => (.ok column.datatype : Result LogicalType)
      | none => .error (.error (.columnNotFound (toString columnId)))) = .ok types := by
    refine Traverse.exists_mapM_iff.mpr fun columnId hmem => ?_
    obtain ⟨c, hc, hid⟩ := h columnId hmem
    obtain ⟨c', hc'⟩ := getColumnById_isSome hc hid
    exact ⟨c'.datatype, by rw [hc']⟩
  obtain ⟨types, hmap⟩ := hmap
  rw [indexValueType, hmap, Result.ok_bind]
  split <;> exact ⟨_, rfl⟩

theorem addIndexMeta_eq_ok (h : table.addIndexMeta name columnIds ty = .ok (table', index)) :
    (∀ i ∈ table.indexes, i.name ≠ name) ∧ index.id = table.nextIndexId ∧
      index.columnIds = columnIds ∧ index.ty = ty ∧ index.name = name ∧
      table' = { table with indexes := table.indexes ++ [index] } := by
  unfold addIndexMeta at h
  split at h
  · cases h
  · next hname =>
    obtain ⟨valueTy, -, h⟩ := Result.bind_eq_ok.mp h
    cases h
    exact ⟨by simpa using hname, rfl, rfl, rfl, rfl, rfl⟩

theorem addIndexMeta_ok (hname : ∀ i ∈ table.indexes, i.name ≠ name)
    (h : ∀ columnId ∈ columnIds, ∃ c ∈ table.columns, c.id = some columnId) :
    ∃ table' index, table.addIndexMeta name columnIds ty = .ok (table', index) := by
  obtain ⟨valueTy, hv⟩ := indexValueType_ok h
  rw [addIndexMeta, if_neg (by simpa using hname), hv]
  exact ⟨_, _, rfl⟩

end KiteSQL.TableCatalog
