import KiteSQL.Storage.Metadata
import KiteSQL.Types.Cast

/-! The operations of a transaction on tables, views, columns and indexes. -/
namespace KiteSQL.Transaction

open TableCodec

def failWith {α : Type} (e : DatabaseError) : Exec α :=
  liftM (Except.error (Fault.error e) : Result α)

def unwrap {α : Type} : Option α → Result α
  | some a => .ok a
  | none => .error (.panic "called `Option::unwrap()` on a `None` value")

def checkNameHash (name : String) : Exec Unit := do
  if ← contains (hashKey name) then failWith (.duplicateSourceHash name)
  else set (hashKey name) []

def dropNameHash (name : String) : Exec Unit := remove (hashKey name)

def dropData (tableName : String) : Exec Unit := do
  removeBound (withTupleBound tableName)
  removeBound (withAllIndexBound tableName)
  removeBound (withStatisticsBound tableName)

def dropTable (tableName : String) (ifExists : Bool) : Exec Bool := do
  if ← contains (rootKey tableName) then do
    dropNameHash tableName
    dropData tableName
    removeBound (withColumnsBound tableName)
    removeBound (withIndexMetaBound tableName)
    remove (rootKey tableName)
    return true
  else if ifExists then return false
  else failWith .tableNotFound

/-- The name is given free before the view is looked for. -/
def dropView (viewName : String) (ifExists : Bool) : Exec Bool := do
  dropNameHash viewName
  if ← contains (viewKey viewName) then do
    remove (viewKey viewName)
    return true
  else if ifExists then return false
  else failWith .viewNotFound

def removeStatisticsMeta (tableName : String) (indexId : UInt32) : Exec Unit :=
  removeBound (withStatisticsIndexBound tableName indexId)

/-- The record, the entries and the statistics of an index. -/
def removeIndex (tableName : String) (indexId : UInt32) : Exec Unit := do
  remove (indexMetaKey tableName indexId)
  removeBound (withIndexBound tableName indexId)
  removeStatisticsMeta tableName indexId

variable [CatalogCodec]

def createView (view : View) (orReplace : Bool) : Exec View := do
  let alreadyExists ← contains (viewKey view.name)
  if !orReplace && alreadyExists then failWith .viewExists
  else do
    if !alreadyExists then checkNameHash view.name else pure ()
    let (key, value) ← withViewValue view
    set key value
    return view

def setIndexMeta (tableName : String) (index : IndexMeta) : Exec Unit := do
  let (key, value) ← withIndexMeta tableName index
  set key value

def setColumn (column : ColumnCatalog) : Exec Unit := do
  let (key, value) ← withColumn column true
  set key value

/-- The index of a column that is unique and no part of the primary key. -/
def createColumnIndex (table : TableCatalog) (column : ColumnCatalog) : Exec TableCatalog :=
  match column.id with
  | none => failWith .primaryKeyNotFound
  | some columnId =>
    if column.desc.primary.isNone && column.desc.isUnique then do
      let (table, index) ←
        table.addIndexMeta ("uk_" ++ column.name ++ "_index") [columnId] .unique
      setIndexMeta table.name index
      return table
    else return table

def primaryKeyIds (table : TableCatalog) : Result (List ColumnId) :=
  table.primaryKeyIndices.mapM fun i => unwrap (table.columns[i]?.bind ColumnCatalog.id)

def createIndexMetaFromColumn (table : TableCatalog) : Exec TableCatalog := do
  let table ← table.columns.foldlM createColumnIndex table
  let primaryKeys ← primaryKeyIds table
  let (table, index) ←
    table.addIndexMeta "pk_index" primaryKeys (.primaryKey (primaryKeys.length ≠ 1))
  setIndexMeta table.name index
  return table

def checkPrimaryKeyTypes (table : TableCatalog) : Result Unit :=
  table.primaryKeyIndices.forM fun i =>
    checkPrimaryKeyType ((table.columns[i]?.map ColumnCatalog.datatype).getD .sqlNull)

def setRootTable (tableName : String) : Exec Unit := do
  let (key, value) ← withRootTable tableName
  set key value

def createTable (tableName : String) (columns : List ColumnCatalog) (ifNotExists : Bool) :
    Exec (Option TableCatalog) := do
  let table ← TableCatalog.new tableName columns
  checkPrimaryKeyTypes table
  if ← contains (rootKey tableName) then
    if ifNotExists then return none else failWith .tableExists
  else do
    checkNameHash tableName
    let table ← createIndexMetaFromColumn table
    setRootTable tableName
    table.columns.forM setColumn
    return some table

def dropIndex (tableName indexName : String) (ifExists : Bool) :
    Exec (Option (TableCatalog × UInt32)) := do
  let table ← Stateful.inspect (loadExisting tableName)
  match table.indexes.find? fun index => index.name = indexName with
  | none => if ifExists then return none else failWith .tableNotFound
  | some index =>
    if index.isPrimary then failWith .invalidIndex
    else do
      removeIndex tableName index.id
      let table ← Stateful.inspect (loadExisting tableName)
      return some (table, index.id)

end KiteSQL.Transaction
