import KiteSQL.Storage.Transaction
import KiteSQL.Types.Cast

/-! The executors of INSERT, UPDATE and DELETE over what their input plan delivers. -/
namespace KiteSQL

def buildResult (message : String) : Tuple := ⟨none, [.utf8 message (.variable none) .characters]⟩

variable [Conversions]

/-- A bound expression over a row. A text it gives for a CHAR type is of that very type. -/
structure ScalarExpression where
  returnType : LogicalType
  eval : List DataValue → Result DataValue
  declares : ∀ row value, eval row = .ok value → value.declaresChar returnType

def ScalarExpression.typeCast (expr : ScalarExpression) (ty : LogicalType) : ScalarExpression :=
  if expr.returnType = ty then expr
  else
    { returnType := ty
      eval := fun row => do (← expr.eval row).cast ty
      declares := fun _ _ h =>
        let ⟨_, _, h⟩ := Result.bind_eq_ok.mp h
        DataValue.cast_declaresChar h }

theorem ScalarExpression.returnType_typeCast (expr : ScalarExpression) (ty : LogicalType) :
    (expr.typeCast ty).returnType = ty := by
  unfold typeCast
  split
  · assumption
  · rfl

/-- Evaluates column references over a row. -/
def rewrite (exprs : List Nat) (values : List DataValue) : Result (List DataValue) :=
  exprs.mapM (Tuple.valueAt values)

variable [DecimalLayout]

inductive MappingKey where
  | name (name : String)
  | id (id : Option ColumnId)
deriving DecidableEq

structure Insert where
  inputSchema : List ColumnCatalog
  isOverwrite : Bool
  isMappingByName : Bool

namespace Insert

def columnKey (op : Insert) (column : ColumnCatalog) : MappingKey :=
  if op.isMappingByName then .name column.name else .id column.id

/-- The values of an input row by column; a column given twice keeps the later one. -/
def tupleMap (op : Insert) : List ColumnCatalog → List DataValue →
    (MappingKey → Option DataValue) → Result (MappingKey → Option DataValue)
  | _, [], map => .ok map
  | [], _ :: _, _ => .error (.panic "index out of bounds")
  | column :: schema, value :: values, map =>
    op.tupleMap schema values (Function.update map (op.columnKey column) (some value))

def inputValue (op : Insert) (map : MappingKey → Option DataValue) (column : ColumnCatalog) :
    Result (Option DataValue) :=
  match map (op.columnKey column) with
  | some value => .ok (some value)
  | none => column.defaultValue

def columnValue (op : Insert) (map : MappingKey → Option DataValue) (column : ColumnCatalog) :
    Result DataValue := do
  let value ← op.inputValue map column
  let value ← (value.getD .null).cast column.datatype
  value.checkLen column.datatype
  if value.isNull && !column.nullable then .error (.error (.notNull (some column.name)))
  else .ok value

/-- The values of a new row, in the order of the table's columns. -/
def rowValues (op : Insert) : List ColumnCatalog → (MappingKey → Option DataValue) →
    Result (List DataValue)
  | [], _ => .ok []
  | column :: columns, map => do
    let value ← op.columnValue map column
    let values ← op.rowValues columns (Function.update map (op.columnKey column) none)
    return value :: values

/-- The row that an input row becomes. -/
def buildRow (op : Insert) (columns : List ColumnCatalog) (values : List DataValue) :
    Result (List DataValue) := do
  op.rowValues columns (← op.tupleMap op.inputSchema values fun _ => none)

def addIndex (tableName : String) (values : List DataValue) (tupleId : DataValue)
    (template : IndexMeta × List Nat) : Exec Unit := do
  let indexValues ← rewrite template.2 values
  Stateful.write fun store =>
    store.addIndex tableName ⟨template.1.id, indexValues, template.1.ty⟩ tupleId

def writeRow (op : Insert) (tableName : String) (snapshot : DmlTableSnapshot)
    (serializers : List TupleValueSerializableImpl) (values : List DataValue) : Exec Unit := do
  let pk ← Tuple.primaryProjection snapshot.primaryKeyIndices values
  snapshot.indexMetas.forM (addIndex tableName values pk)
  Stateful.write fun store =>
    store.appendTuple tableName ⟨some pk, values⟩ serializers op.isOverwrite

def insertRow (op : Insert) (tableName : String) (snapshot : DmlTableSnapshot)
    (serializers : List TupleValueSerializableImpl) (insertedCount : Nat) (item : Result Tuple) :
    Exec Nat := do
  let tuple ← item
  let values ← op.buildRow snapshot.columns tuple.values
  op.writeRow tableName snapshot serializers values
  return insertedCount + 1

def insertTable (op : Insert) (table : TableCatalog) (input : List (Result Tuple)) :
    Exec Nat := do
  let snapshot ← table.dmlSnapshot
  if snapshot.primaryKeyIndices.isEmpty then
    liftM (Except.error (Fault.error (.notNull none)) : Result Nat)
  else do
    let serializers ← table.serializers
    input.foldlM (op.insertRow table.name snapshot serializers) 0

def nextTuple (op : Insert) (table : Option TableCatalog) (input : List (Result Tuple)) :
    Exec Tuple :=
  match table with
  | some table => do
    let insertedCount ← op.insertTable table input
    return buildResult (toString insertedCount)
  | none => return buildResult "0"

end Insert

/-- The assignments of an UPDATE; the binder casts every expression to the type of its column. -/
structure Update where
  inputSchema : List ColumnCatalog
  valueExprs : List (ColumnCatalog × ScalarExpression)
  bound : ∀ assignment ∈ valueExprs, assignment.2.returnType = assignment.1.datatype

namespace Update

/-- The binder's cast of the assigned expressions. -/
def bind (inputSchema : List ColumnCatalog)
    (assignments : List (ColumnCatalog × ScalarExpression)) : Update where
  inputSchema := inputSchema
  valueExprs := assignments.map fun (column, expr) => (column, expr.typeCast column.datatype)
  bound := by
    intro assignment h
    obtain ⟨⟨column, expr⟩, -, rfl⟩ := List.mem_map.mp h
    exact expr.returnType_typeCast column.datatype

def exprsMap (op : Update) : Result (List (ColumnId × ScalarExpression)) :=
  op.valueExprs.mapM fun (column, expr) =>
    match column.id with
    | some columnId => .ok (columnId, expr)
    | none => .error (.error (.columnNotFound column.name))

/-- A column assigned twice keeps the later expression. -/
def exprOf (exprs : List (ColumnId × ScalarExpression)) (column : ColumnCatalog) :
    Option ScalarExpression :=
  column.id.bind fun columnId => exprs.reverse.lookup columnId

def isUpdated (exprs : List (ColumnId × ScalarExpression)) (columnId : ColumnId) : Bool :=
  exprs.any fun expr => expr.1 = columnId

def indexNeedsUpdate (index : IndexMeta) (exprs : List (ColumnId × ScalarExpression))
    (updatesPrimaryKey : Bool) : Bool :=
  !index.isPrimary && (updatesPrimaryKey || index.columnIds.any (isUpdated exprs))

def updatesPrimaryKey (snapshot : DmlTableSnapshot)
    (exprs : List (ColumnId × ScalarExpression)) : Bool :=
  snapshot.primaryKeyIndices.any fun i =>
    (snapshot.columns[i]?.bind ColumnCatalog.id).any (isUpdated exprs)

def setValue (values : List DataValue) (i : Nat) (value : DataValue) : Result (List DataValue) :=
  if i < values.length then .ok (values.set i value) else .error (.panic "index out of bounds")

/-- The loop over the columns from position `i` on: each assigned expression is evaluated on the
row as the assignments before it left it. -/
def assign (exprs : List (ColumnId × ScalarExpression)) :
    Nat → List ColumnCatalog → List DataValue → Result (List DataValue)
  | _, [], values => .ok values
  | i, column :: columns, values =>
    match exprOf exprs column with
    | none => assign exprs (i + 1) columns values
    | some expr => do
      let value ← expr.eval values
      assign exprs (i + 1) columns (← setValue values i value)

/-- Moves the entry of one index from the old values of a row to the new ones. -/
def rewriteIndex (tableName : String) (values : List DataValue) (oldPk newPk : DataValue)
    (primaryKeyChanged : Bool) (old : (IndexMeta × List Nat) × List DataValue) : Exec Unit := do
  let newValues ← rewrite old.1.2 values
  if !primaryKeyChanged && DataValue.eqList old.2 newValues then return ()
  else do
    Stateful.write fun store =>
      store.delIndex tableName ⟨old.1.1.id, old.2, old.1.1.ty⟩ oldPk
    Stateful.write fun store =>
      store.addIndex tableName ⟨old.1.1.id, newValues, old.1.1.ty⟩ newPk

/-- The indexes an UPDATE may have to rewrite, with their values in the old row. -/
def oldIndexValues (snapshot : DmlTableSnapshot) (exprs : List (ColumnId × ScalarExpression))
    (values : List DataValue) : Result (List ((IndexMeta × List Nat) × List DataValue)) :=
  (snapshot.indexMetas.filter fun template =>
      indexNeedsUpdate template.1 exprs (updatesPrimaryKey snapshot exprs)).mapM fun template =>
    do return (template, ← rewrite template.2 values)

def rewriteRow (op : Update) (tableName : String) (snapshot : DmlTableSnapshot)
    (serializers : List TupleValueSerializableImpl) (exprs : List (ColumnId × ScalarExpression))
    (oldPk : DataValue) (oldValues : List DataValue) : Exec Unit := do
  let old ← oldIndexValues snapshot exprs oldValues
  let values ← assign exprs 0 op.inputSchema oldValues
  let newPk ← Tuple.primaryProjection snapshot.primaryKeyIndices values
  let primaryKeyChanged := !newPk.eq oldPk
  Stateful.write fun store =>
    if primaryKeyChanged then store.removeTuple tableName oldPk else .ok store
  old.forM (rewriteIndex tableName values oldPk newPk primaryKeyChanged)
  Stateful.write fun store =>
    store.appendTuple tableName ⟨some newPk, values⟩ serializers (!primaryKeyChanged)

def updateRow (op : Update) (tableName : String) (snapshot : DmlTableSnapshot)
    (serializers : List TupleValueSerializableImpl) (exprs : List (ColumnId × ScalarExpression))
    (updatedCount : Nat) (item : Result Tuple) : Exec Nat := do
  let tuple ← item
  match tuple.pk with
  | none => return updatedCount
  | some oldPk => do
    op.rewriteRow tableName snapshot serializers exprs oldPk tuple.values
    return updatedCount + 1

def serializers (op : Update) : Result (List TupleValueSerializableImpl) :=
  op.inputSchema.mapM fun column => column.datatype.serializable

def updateTable (op : Update) (table : TableCatalog)
    (exprs : List (ColumnId × ScalarExpression)) (input : List (Result Tuple)) : Exec Nat := do
  let snapshot ← table.dmlSnapshot
  let serializers ← op.serializers
  input.foldlM (op.updateRow table.name snapshot serializers exprs) 0

def nextTuple (op : Update) (table : Option TableCatalog) (input : List (Result Tuple)) :
    Exec Tuple := do
  let exprs ← op.exprsMap
  match table with
  | some table => do
    let updatedCount ← op.updateTable table exprs input
    return buildResult (toString updatedCount)
  | none => return buildResult "0"

end Update

namespace Delete

def delIndex (tableName : String) (values : List DataValue) (tupleId : DataValue)
    (template : IndexMeta × List Nat) : Exec Unit := do
  let indexValues ← rewrite template.2 values
  Stateful.write fun store =>
    store.delIndex tableName ⟨template.1.id, indexValues, template.1.ty⟩ tupleId

def deleteRow (tableName : String) (templates : List (IndexMeta × List Nat))
    (deletedCount : Nat) (item : Result Tuple) : Exec Nat := do
  let tuple ← item
  match tuple.pk with
  | none => return deletedCount
  | some tupleId => do
    templates.forM (delIndex tableName tuple.values tupleId)
    Stateful.write fun store => store.removeTuple tableName tupleId
    return deletedCount + 1

def deleteTable (table : TableCatalog) (input : List (Result Tuple)) : Exec Nat := do
  let templates ← table.indexTemplates
  input.foldlM (deleteRow table.name templates) 0

def nextTuple (table : Option TableCatalog) (input : List (Result Tuple)) : Exec Tuple :=
  match table with
  | some table => do
    let deletedCount ← deleteTable table input
    return buildResult (toString deletedCount)
  | none => liftM (Except.error (Fault.error .tableNotFound) : Result Tuple)

end Delete

end KiteSQL
