import KiteSQL.Catalog.Table
import KiteSQL.Lib.Stateful

/-! The key-value store of a transaction, its writes and the scan of a table. -/
namespace KiteSQL

open TableCodec

/-- Keys in byte order, as every backend keeps them. -/
abbrev Store := Std.TreeMap Bytes Bytes compare

abbrev KeyValue := Bytes × Bytes

/-- Statements write to the store of their transaction; a failed one keeps what it wrote. -/
abbrev Exec (α : Type) := Stateful Store Fault α

inductive Bound (α : Type) where
  | included (value : α)
  | excluded (value : α)
  | unbounded
deriving DecidableEq

namespace Bound

def admitsMin (bound : Bound Bytes) (key : Bytes) : Bool :=
  match bound with
  | .included min => (compare min key).isLE
  | .excluded min => (compare min key).isLT
  | .unbounded => true

def admitsMax (bound : Bound Bytes) (key : Bytes) : Bool :=
  match bound with
  | .included max => (compare key max).isLE
  | .excluded max => (compare key max).isLT
  | .unbounded => true

/-- `BTreeMap::range` panics on a range whose start is past its end. -/
def isInverted : Bound Bytes → Bound Bytes → Bool
  | .excluded min, .excluded max => (compare min max).isGE
  | .included min, .included max | .included min, .excluded max
  | .excluded min, .included max => (compare min max).isGT
  | _, _ => false

end Bound

namespace Store

/-- The range of a map that has had an entry, as the store of every database with a table has. -/
def range (store : Store) (min max : Bound Bytes) : Result (List KeyValue) :=
  if Bound.isInverted min max then
    .error (.panic "range start is greater than range end in BTreeMap")
  else .ok (store.toList.filter fun entry => min.admitsMin entry.1 && max.admitsMax entry.1)

variable [DecimalLayout]

def addIndex (store : Store) (tableName : String) (index : Index) (tupleId : DataValue) :
    Result Store :=
  match index.ty with
  | .primaryKey _ => .ok store
  | ty => do
    let (key, value) ← withIndex tableName index (some tupleId)
    match ty, store[key]? with
    | .unique, some bytes =>
      if bytes ≠ value then .error (.error .duplicateUniqueValue) else .ok store
    | _, _ => .ok (store.insert key value)

def delIndex (store : Store) (tableName : String) (index : Index) (tupleId : DataValue) :
    Result Store :=
  match index.ty with
  | .primaryKey _ => .ok store
  | _ => do
    let (key, _) ← withIndex tableName index (some tupleId)
    return store.erase key

def appendTuple (store : Store) (tableName : String) (tuple : Tuple)
    (serializers : List TupleValueSerializableImpl) (isOverwrite : Bool) : Result Store :=
  match tuple.pk with
  | none => .error (.error .primaryKeyNotFound)
  | some tupleId => do
    let (key, value) ← withTuple tableName tupleId (Tuple.serializeTo tuple.values serializers)
    if !isOverwrite && store.contains key then .error (.error .duplicatePrimaryKey)
    else .ok (store.insert key value)

def removeTuple (store : Store) (tableName : String) (tupleId : DataValue) : Result Store := do
  let (key, _) ← withTuple tableName tupleId (.ok [])
  return store.erase key

end Store

structure IterBounds where
  offset : Nat
  limit : Option Nat

namespace IterBounds

def limitReached (bounds : IterBounds) : Bool := bounds.limit = some 0

def consumeLimit (bounds : IterBounds) : IterBounds :=
  { bounds with limit := bounds.limit.map (· - 1) }

end IterBounds

/-- A scan of the rows of one table. -/
structure TupleIter where
  bounds : IterBounds
  pkTy : Option LogicalType
  deserializers : List TupleValueSerializableImpl
  totalLen : Nat
  iter : List KeyValue

/-- `decode_tuple_into`. -/
def decodeTuple [DecimalLayout] (deserializers : List TupleValueSerializableImpl)
    (tupleId : Option DataValue) (bytes : Bytes) (totalLen : Nat) : Result Tuple := do
  let values ← Tuple.deserializeFromInto deserializers bytes totalLen
  return ⟨tupleId, values⟩

namespace TupleIter

/-- The entries after the offset, unless there are fewer; skipped entries are not decoded. -/
def skipOffset : Nat → List KeyValue → Nat × Option (List KeyValue)
  | 0, iter => (0, some iter)
  | offset + 1, [] => (offset, none)
  | offset + 1, _ :: iter => skipOffset offset iter

def nextTupleInto [DecimalLayout] (it : TupleIter) : Result (Option Tuple × TupleIter) :=
  match skipOffset it.bounds.offset it.iter with
  | (offset, none) | (offset, some []) =>
    .ok (none, { it with bounds := { it.bounds with offset := offset }, iter := [] })
  | (offset, some ((key, value) :: iter)) =>
    let bounds := { it.bounds with offset := offset }
    if bounds.limitReached then .ok (none, { it with bounds := bounds, iter := iter })
    else do
      let tupleId ← it.pkTy.mapM (decodeTupleKey key)
      let tuple ← decodeTuple it.deserializers tupleId value it.totalLen
      return (some tuple, { it with bounds := bounds.consumeLimit, iter := iter })

end TupleIter

/-- The scan that `Transaction::read` opens. -/
def Store.read (store : Store) (table : TableCatalog) (bounds : IterBounds)
    (columns : List ColumnCatalog) (withPk : Bool) : Result TupleIter := do
  let deserializers ← table.createDeserializers columns withPk
  let (min, max) := withTupleBound table.name
  let iter ← store.range (.included min) (.included max)
  return ⟨bounds, if withPk then some table.primaryKeyType else none, deserializers,
    table.columns.length, iter⟩

end KiteSQL
