import KiteSQL.Lib.Iterate
import KiteSQL.Storage.Transaction

/-! Reading the rows that a list of ranges over one index selects. -/
namespace KiteSQL

open TableCodec

inductive Range where
  | scope (min max : Bound DataValue)
  | eq (value : DataValue)
  | dummy
  | sortedRanges (ranges : List Range)

inductive IndexImplEnum where
  | primaryKey
  | unique
  | normal
  | composite
  | covered
deriving DecidableEq

def IndexImplEnum.instance : IndexType → IndexImplEnum
  | .primaryKey _ => .primaryKey
  | .unique => .unique
  | .normal => .normal
  | .composite => .composite

structure IndexImplParams where
  indexMeta : IndexMeta
  tableName : String
  deserializers : List TupleValueSerializableImpl
  totalLen : Nat
  tx : Store
  coverMapping : Option IndexKeyMapping
  withPk : Bool

inductive IndexResult where
  | hit (tuple : Tuple)
  | miss
  | scope (iter : List KeyValue)

def encodeBoundKey (key : Bytes) (isUpper : Bool) : Bytes :=
  if isUpper then key ++ [boundMaxTag] else key

def indexValues : DataValue → List DataValue
  | .tuple values => values
  | value => [value]

def fillDefaultBound (bound : Bound Bytes) (default : Bytes) : Bound Bytes :=
  match bound with
  | .unbounded => .included default
  | bound => bound

/-- Where each index column goes in the scanned row; columns that are not scanned go nowhere. -/
def tupleMapping (scanToIndex : List Nat) (tupleLen : Nat) : IndexKeyMapping :=
  let indexToScan := scanToIndex.zipIdx.foldl (fun slots (indexIdx, scanIdx) =>
    slots.set indexIdx scanIdx) (List.replicate tupleLen usizeMax)
  tupleMappingRef indexToScan scanToIndex.length

namespace IndexImplParams

variable [DecimalLayout]

def getTupleById (params : IndexImplParams) (tupleId : DataValue) : Result (Option Tuple) := do
  let (key, _) ← withTupleUnchecked params.tableName tupleId (.ok [])
  match params.tx[key]? with
  | none => return none
  | some bytes => some <$> decodeTuple params.deserializers (some tupleId) bytes params.totalLen

def secondaryIndexLookup (params : IndexImplParams) (bytes : Bytes) : Result Tuple := do
  let tupleId ← decodeIndex bytes
  match ← params.getTupleById tupleId with
  | some tuple => return tuple
  | none => throw (.error (.tupleIdNotFound tupleId))

/-- The row that an entry of the index, or of the table for its primary key, stands for. -/
def indexLookup (params : IndexImplParams) (inner : IndexImplEnum) (entry : KeyValue) :
    Result Tuple :=
  match inner with
  | .primaryKey => do
    let tupleId ← decodeTupleKey entry.1 params.indexMeta.pkTy
    decodeTuple params.deserializers (some tupleId) entry.2 params.totalLen
  | .unique | .normal | .composite => params.secondaryIndexLookup entry.2
  | .covered => do
    let values ← decodeIndexKey entry.1 params.indexMeta.valueTy
      (params.coverMapping.getD orderedMapping)
    let tupleId ← if params.withPk then some <$> decodeIndex entry.2 else pure none
    return ⟨tupleId, values⟩

/-- The key of an index entry for the values, without a row. -/
def indexKey (params : IndexImplParams) (ty : IndexType) (value : DataValue) : Result Bytes := do
  let (key, _) ← withIndex params.tableName ⟨params.indexMeta.id, indexValues value, ty⟩ none
  return key

def boundKey (params : IndexImplParams) (inner : IndexImplEnum) (value : DataValue)
    (isUpper : Bool) : Result Bytes :=
  match inner with
  | .primaryKey => do
    let (key, _) ← withTupleUnchecked params.tableName value (.ok [])
    return encodeBoundKey key isUpper
  | .unique => params.indexKey .unique value
  | .normal => (encodeBoundKey · isUpper) <$> params.indexKey .normal value
  | .composite => (encodeBoundKey · isUpper) <$> params.indexKey .composite value
  | .covered => (encodeBoundKey · isUpper) <$> params.indexKey params.indexMeta.ty value

def eqToResScope (params : IndexImplParams) (inner : IndexImplEnum) (value : DataValue) :
    Result IndexResult := do
  let min ← params.boundKey inner value false
  let max ← params.boundKey inner value true
  return .scope (← params.tx.range (.included min) (.included max))

def eqToRes (params : IndexImplParams) (inner : IndexImplEnum) (value : DataValue) :
    Result IndexResult :=
  match inner with
  | .primaryKey => do
    match ← params.getTupleById value with
    | some tuple => return .hit tuple
    | none => return .miss
  | .unique => do
    let key ← params.indexKey .unique value
    match params.tx[key]? with
    | none => return .miss
    | some bytes => return .hit (← params.secondaryIndexLookup bytes)
  | inner => params.eqToResScope inner value

def encodeBound (params : IndexImplParams) (inner : IndexImplEnum) (bound : Bound DataValue)
    (isUpper : Bool) : Result (Bound Bytes) :=
  match bound with
  | .included value => .included <$> params.boundKey inner value isUpper
  | .excluded value => .excluded <$> params.boundKey inner value (!isUpper)
  | .unbounded => .ok .unbounded

/-- The entries between two bounds; an open end is the end of the index. -/
def openScope (params : IndexImplParams) (inner : IndexImplEnum) (min max : Bound DataValue) :
    Result (List KeyValue) := do
  let encodeMin ← params.encodeBound inner min false
  let encodeMax ← params.encodeBound inner max true
  let (boundMin, boundMax) := match params.indexMeta.ty with
    | .primaryKey _ => withTupleBound params.tableName
    | _ => withIndexBound params.tableName params.indexMeta.id
  params.tx.range (fillDefaultBound encodeMin boundMin) (fillDefaultBound encodeMax boundMax)

end IndexImplParams

inductive IndexIterState where
  | init
  | range (iter : List KeyValue)
  | over

structure IndexIter where
  bounds : IterBounds
  params : IndexImplParams
  inner : IndexImplEnum
  ranges : List Range
  state : IndexIterState

namespace IndexIter

/-- The first entry past the offset, which counts against the limit. -/
def takeEntry : IterBounds → List KeyValue → Option (KeyValue × List KeyValue) × IterBounds
  | bounds, [] => (none, bounds)
  | bounds, entry :: iter =>
    if bounds.offset > 0 then takeEntry { bounds with offset := bounds.offset - 1 } iter
    else (some (entry, iter), bounds.consumeLimit)

variable [DecimalLayout]

/-- The state `Range`: the next entry, or what `exhausted` finds after the last one. -/
def scan (it : IndexIter) (ranges : List Range) (iter : List KeyValue) (bounds : IterBounds)
    (exhausted : IterBounds → Result (Option Tuple × IndexIter)) :
    Result (Option Tuple × IndexIter) :=
  match takeEntry bounds iter with
  | (some (entry, iter), bounds) => do
    let tuple ← it.params.indexLookup it.inner entry
    return (some tuple, { it with bounds := bounds, ranges := ranges, state := .range iter })
  | (none, bounds) => exhausted bounds

/-- The state `Init`: ranges are opened one after the other; a point lookup that misses ends the
call. -/
def nextFrom (it : IndexIter) : List Range → IterBounds → Result (Option Tuple × IndexIter)
  | [], bounds => .ok (none, { it with bounds := bounds, ranges := [], state := .over })
  | .scope min max :: ranges, bounds => do
    let iter ← it.params.openScope it.inner min max
    it.scan ranges iter bounds (it.nextFrom ranges)
  | .eq value :: ranges, bounds => do
    match ← it.params.eqToRes it.inner value with
    | .hit tuple =>
      if bounds.offset > 0 then
        it.nextFrom ranges { bounds with offset := bounds.offset - 1 }
      else
        return (some tuple,
          { it with bounds := bounds.consumeLimit, ranges := ranges, state := .init })
    | .miss => return (none, { it with bounds := bounds, ranges := ranges, state := .init })
    | .scope iter => it.scan ranges iter bounds (it.nextFrom ranges)
  | .dummy :: ranges, bounds | .sortedRanges _ :: ranges, bounds => it.nextFrom ranges bounds

def nextTupleInto (it : IndexIter) : Result (Option Tuple × IndexIter) :=
  if it.bounds.limitReached then .ok (none, { it with state := .over })
  else
    match it.state with
    | .init => it.nextFrom it.ranges it.bounds
    | .range iter => it.scan it.ranges iter it.bounds (it.nextFrom it.ranges)
    | .over => .ok (none, it)

end IndexIter

/-- How `read_by_index` reads the entries: an index that covers the scanned columns is read without
the rows. -/
def TableCatalog.indexImpl (table : TableCatalog) (columns : List ColumnCatalog)
    (indexMeta : IndexMeta) (withPk : Bool)
    (coveredDeserializers : Option (List TupleValueSerializableImpl))
    (coverMappingIndices : Option (List Nat)) :
    Result (IndexImplEnum × List TupleValueSerializableImpl × Option IndexKeyMapping) :=
  match coveredDeserializers, indexMeta.ty with
  | some deserializers, .unique | some deserializers, .normal | some deserializers, .composite =>
    .ok (.covered, deserializers, coverMappingIndices.map fun slots =>
      tupleMapping slots (indexTypes indexMeta.valueTy).length)
  | _, _ => do
    let deserializers ← table.createDeserializers columns withPk
    return (IndexImplEnum.instance indexMeta.ty, deserializers, none)

/-- The iterator that `read_by_index` opens. -/
def Store.readByIndex (store : Store) (table : TableCatalog) (bounds : IterBounds)
    (columns : List ColumnCatalog) (indexMeta : IndexMeta) (ranges : List Range) (withPk : Bool)
    (coveredDeserializers : Option (List TupleValueSerializableImpl))
    (coverMappingIndices : Option (List Nat)) : Result IndexIter := do
  let (inner, deserializers, coverMapping) ←
    table.indexImpl columns indexMeta withPk coveredDeserializers coverMappingIndices
  let params : IndexImplParams :=
    ⟨indexMeta, table.name, deserializers, table.columns.length, store, coverMapping, withPk⟩
  return ⟨bounds, params, inner, ranges, .init⟩

end KiteSQL
