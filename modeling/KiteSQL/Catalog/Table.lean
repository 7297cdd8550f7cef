import KiteSQL.Storage.TableCodec
import KiteSQL.Types.Tuple

/-! Tables, their columns and their indexes. References into an arena are followed. -/
namespace KiteSQL

abbrev ColumnId := UInt64

inductive ColumnRelation where
  | none
  | table (columnId : ColumnId) (tableName : String) (isTemp : Bool)
deriving DecidableEq

structure ColumnSummary where
  name : String
  relation : ColumnRelation
deriving DecidableEq

structure ColumnDesc where
  columnDatatype : LogicalType
  primary : Option Nat
  isUnique : Bool
  /-- What the default expression, which reads no row, evaluates to. -/
  default : Option (Result DataValue)

structure ColumnCatalog where
  summary : ColumnSummary
  nullable : Bool
  desc : ColumnDesc

namespace ColumnCatalog

def id (column : ColumnCatalog) : Option ColumnId :=
  match column.summary.relation with
  | .none => none
  | .table columnId _ _ => some columnId

def name (column : ColumnCatalog) : String := column.summary.name

def datatype (column : ColumnCatalog) : LogicalType := column.desc.columnDatatype

def defaultValue (column : ColumnCatalog) : Result (Option DataValue) :=
  match column.desc.default with
  | some value => value.map some
  | none => .ok none

def sameColumn (left right : ColumnCatalog) : Bool := left.summary = right.summary

end ColumnCatalog

structure IndexMeta where
  id : UInt32
  columnIds : List ColumnId
  pkTy : LogicalType
  valueTy : LogicalType
  name : String
  ty : IndexType
deriving DecidableEq

structure TableCatalog where
  name : String
  columns : List ColumnCatalog
  indexes : List IndexMeta

namespace TableCatalog

/-- Positions of the primary key columns in the order the key lists them. -/
def primaryKeyIndices (table : TableCatalog) : List Nat :=
  let keyed := table.columns.zipIdx.filterMap fun (column, i) =>
    column.desc.primary.map fun primaryIndex => (primaryIndex, i)
  (keyed.insertionSort fun a b => a.1 ≤ b.1).map Prod.snd

def primaryKeyType (table : TableCatalog) : LogicalType :=
  match table.primaryKeyIndices.filterMap fun i => table.columns[i]?.map ColumnCatalog.datatype with
  | [ty] => ty
  | types => .tuple types

def columnTypes (table : TableCatalog) : List LogicalType := table.columns.map (·.datatype)

def serializers (table : TableCatalog) : Result (List TupleValueSerializableImpl) :=
  table.columnTypes.mapM LogicalType.serializable

/-- The loop of `create_deserializers`, which stops once nothing more is wanted. -/
def deserializersFrom (withPk : Bool) : List ColumnCatalog → Nat → List ColumnCatalog →
    Result (List TupleValueSerializableImpl)
  | columns, pkLen, [] =>
    if columns.isEmpty && pkLen = 0 then .ok []
    else .error (.panic "assertion failed: columns.next().is_none()")
  | columns, pkLen, tableColumn :: tableColumns =>
    if columns.isEmpty && pkLen = 0 then .ok []
    else
      let isPrimaryKey := withPk && tableColumn.desc.primary.isSome
      let pkLen := if isPrimaryKey then pkLen - 1 else pkLen
      if columns.head?.any fun column => column.sameColumn tableColumn then do
        let deserializer ← tableColumn.datatype.serializable
        return deserializer :: (← deserializersFrom withPk columns.tail pkLen tableColumns)
      else if isPrimaryKey then do
        let deserializer ← tableColumn.datatype.serializable
        return deserializer :: (← deserializersFrom withPk columns pkLen tableColumns)
      else do
        let deserializer ← tableColumn.datatype.skipSerializable
        return deserializer :: (← deserializersFrom withPk columns pkLen tableColumns)

def createDeserializers (columns : List ColumnCatalog) (table : TableCatalog) (withPk : Bool) :
    Result (List TupleValueSerializableImpl) :=
  deserializersFrom withPk columns (if withPk then table.primaryKeyIndices.length else 0)
    table.columns

end TableCatalog

namespace IndexMeta

/-- The expressions for the index columns, each a reference to a column position. -/
def columnExprs (index : IndexMeta) (table : TableCatalog) : Result (List Nat) :=
  index.columnIds.mapM fun columnId =>
    match table.columns.findIdx? fun column => column.id = some columnId with
    | some position => .ok position
    | none => .error (.error (.columnNotFound (toString columnId)))

def isPrimary (index : IndexMeta) : Bool :=
  match index.ty with
  | .primaryKey _ => true
  | _ => false

end IndexMeta

/-- What a writing statement keeps of its table. -/
structure DmlTableSnapshot where
  columns : List ColumnCatalog
  primaryKeyIndices : List Nat
  indexMetas : List (IndexMeta × List Nat)

namespace TableCatalog

def indexTemplates (table : TableCatalog) : Result (List (IndexMeta × List Nat)) :=
  table.indexes.mapM fun index => do return (index, ← index.columnExprs table)

def dmlSnapshot (table : TableCatalog) : Result DmlTableSnapshot := do
  return ⟨table.columns, table.primaryKeyIndices, ← table.indexTemplates⟩

/-- Ids are handed out once. -/
structure WellFormed (table : TableCatalog) : Prop where
  columnIds : (table.columns.map (·.id)).Nodup
  indexIds : (table.indexes.map (·.id)).Nodup

end TableCatalog

end KiteSQL
