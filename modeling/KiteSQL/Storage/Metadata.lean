import KiteSQL.Catalog.Alter
import KiteSQL.Lib.Batches
import KiteSQL.Storage.Transaction

/-! Keys of what the store holds besides rows and index entries, and how they are removed. -/
namespace KiteSQL

open Endian

structure View where
  name : String

/-- The stored forms of catalog records. -/
class CatalogCodec where
  encodeColumn : ColumnCatalog → Result Bytes
  decodeColumn : Bytes → Result ColumnCatalog
  encodeIndexMeta : IndexMeta → Result Bytes
  decodeIndexMeta : Bytes → Result IndexMeta
  /-- `TableMeta` holds the name of the table. -/
  encodeRootTable : String → Result Bytes
  encodeView : View → Result Bytes

/-- The record at a position of a list. -/
def recordAt {α : Type} (records : List α) (position : Nat) : Result α :=
  match records[position]? with
  | some record => .ok record
  | none => .error (.error .invalidType)

/-- A codec for the records of two lists, each stored as that many bytes as it has before it. -/
@[reducible] def CatalogCodec.listed (columns : List ColumnCatalog) (indexes : List IndexMeta) :
    CatalogCodec where
  encodeColumn column := .ok (List.replicate (columns.findIdx column.sameColumn) 0)
  decodeColumn bytes := recordAt columns bytes.length
  encodeIndexMeta index := .ok (List.replicate (indexes.idxOf index) 0)
  decodeIndexMeta bytes := recordAt indexes bytes.length
  encodeRootTable tableName := .ok (asBytes tableName)
  encodeView view := .ok (asBytes view.name)

namespace TableCodec

def columnKey (tableName : String) (columnId : ColumnId) : Bytes :=
  writeKeyPrefix .column (hashBytes tableName) ++ boundMinTag :: toBeBytes 8 columnId.toNat

def indexMetaKey (tableName : String) (indexId : UInt32) : Bytes :=
  writeKeyPrefix .indexMeta (hashBytes tableName) ++
    boundMinTag :: toLeBytes indexIdLen indexId.toNat

def rootKey (tableName : String) : Bytes := writeKeyPrefix .root (hashBytes tableName)

def viewKey (viewName : String) : Bytes := writeKeyPrefix .view (hashBytes viewName)

def hashKey (name : String) : Bytes := writeKeyPrefix .hash (hashBytes name)

/-- What the keys of the statistics of one index start with. -/
def statisticsPrefix (tableName : String) (indexId : UInt32) : Bytes :=
  writeKeyPrefix .statistics (hashBytes tableName) ++
    boundMinTag :: toLeBytes indexIdLen indexId.toNat

/-- From the least to the greatest tag after a prefix. -/
def bound (ty : CodecType) (tableName : String) : Bytes × Bytes :=
  (writeKeyPrefix ty (hashBytes tableName) ++ [boundMinTag],
    writeKeyPrefix ty (hashBytes tableName) ++ [boundMaxTag])

def withIndexMetaBound (tableName : String) : Bytes × Bytes := bound .indexMeta tableName

def withAllIndexBound (tableName : String) : Bytes × Bytes := bound .index tableName

def withColumnsBound (tableName : String) : Bytes × Bytes := bound .column tableName

def withStatisticsBound (tableName : String) : Bytes × Bytes := bound .statistics tableName

/-- Columns and index records stand side by side. -/
def withTableBound (tableName : String) : Bytes × Bytes :=
  ((bound .column tableName).1, (bound .indexMeta tableName).2)

def withStatisticsIndexBound (tableName : String) (indexId : UInt32) : Bytes × Bytes :=
  (statisticsPrefix tableName indexId, statisticsPrefix tableName indexId ++ [boundMaxTag])

variable [CatalogCodec]

def withIndexMeta (tableName : String) (index : IndexMeta) : Result (Bytes × Bytes) := do
  let value ← CatalogCodec.encodeIndexMeta index
  return (indexMetaKey tableName index.id, value)

def withColumn (column : ColumnCatalog) (encodeValue : Bool) : Result (Bytes × Bytes) :=
  match column.summary.relation with
  | .table columnId tableName false => do
    let value ← if encodeValue then CatalogCodec.encodeColumn column else .ok []
    return (columnKey tableName columnId, value)
  | _ => .error (.error (.invalidColumn "column does not belong to table"))

def withRootTable (tableName : String) : Result (Bytes × Bytes) := do
  let value ← CatalogCodec.encodeRootTable tableName
  return (rootKey tableName, value)

def withViewValue (view : View) : Result (Bytes × Bytes) := do
  let value ← CatalogCodec.encodeView view
  return (viewKey view.name, value)

end TableCodec

namespace Transaction

open TableCodec

def contains (key : Bytes) : Exec Bool := Stateful.inspect fun store => .ok (store.contains key)

def set (key value : Bytes) : Exec Unit :=
  Stateful.write fun store => .ok (store.insert key value)

def remove (key : Bytes) : Exec Unit := Stateful.write fun store => .ok (store.erase key)

def deleteBatchSize : Nat := 1024

/-- The keys that one round of `remove_range` collects. -/
def dataKeys (min max : Bound Bytes) (lower : Option Bytes) (store : Store) :
    Result (List Bytes) := do
  let iter ← store.range ((lower.map Bound.excluded).getD min) max
  return (iter.take deleteBatchSize).map Prod.fst

def removeRange (min max : Bound Bytes) : Exec Unit := fun store =>
  Batches.loop deleteBatchSize (dataKeys min max) some remove .divergence (store.size + 1) none
    store

/-- `remove_range` over the bounds of a family of keys. -/
def removeBound (bound : Bytes × Bytes) : Exec Unit :=
  removeRange (.included bound.1) (.included bound.2)

variable [CatalogCodec]

def tableCollect (tableName : String) (store : Store) :
    Result (Option (List ColumnCatalog × List IndexMeta)) := do
  let (min, max) := withTableBound tableName
  let iter ← store.range (.included min) (.included max)
  let columns ← (iter.filter fun entry => min.isPrefixOf entry.1).mapM fun entry =>
    CatalogCodec.decodeColumn entry.2
  let indexMetas ← (iter.filter fun entry => !min.isPrefixOf entry.1).mapM fun entry =>
    CatalogCodec.decodeIndexMeta entry.2
  return if columns.isEmpty then none else some (columns, indexMetas)

def loadTable (tableName : String) (store : Store) : Result (Option TableCatalog) := do
  match ← tableCollect tableName store with
  | none => return none
  | some (columns, indexes) => return some (← TableCatalog.reload tableName columns indexes)

/-- `load_table` where a missing table is an error. -/
def loadExisting (tableName : String) (store : Store) : Result TableCatalog := do
  match ← loadTable tableName store with
  | some table => return table
  | none => .error (.error .tableNotFound)

end Transaction

end KiteSQL
