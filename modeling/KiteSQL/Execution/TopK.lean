import KiteSQL.Lib.Slice
import KiteSQL.Planner.Plan
import KiteSQL.Planner.SortCode
import KiteSQL.Storage.TableCodec

/-! The first rows of a sort, kept while the input is read. -/
namespace KiteSQL

open Iterate Result Option

/-- The row count that a LIMIT or an OFFSET of a statement names. -/
def bindNonNegativeLimitValue : Expression → Result Nat
  | .constant (.int32 v) => if 0 ≤ v then .ok v.toInt.toNat else .error (.error .invalidType)
  | .constant (.int64 v) => if 0 ≤ v then .ok v.toInt.toNat else .error (.error .invalidType)
  | .constant _ => .error (.error .invalidType)
  | _ => .error (.error (.invalidColumn "invalid limit expression."))

def bindLimit (limit offset : Option Expression) : Result LimitOperator := do
  let limitValue ← limit.mapM bindNonNegativeLimitValue
  let offsetValue ← offset.mapM bindNonNegativeLimitValue
  return ⟨offsetValue, limitValue⟩

/-- The limits that statements and the query builder put above a plan: the builder adds a limit or
an offset of the width of a `usize`, a statement both as they are parsed. -/
inductive LimitOperator.Binds : LimitOperator → Prop
  | parsed {op : LimitOperator} {limit offset : Option Expression} :
      bindLimit limit offset = .ok op → Binds op
  | limited (limit : UInt64) : Binds ⟨none, some limit.toNat⟩
  | skipped (offset : UInt64) : Binds ⟨some offset.toNat, none⟩

structure TopKOperator where
  sortFields : List SortField
  limit : Nat
  offset : Option Nat

/-- The operator that replaces a limit above a sort. -/
def TopKOperator.ofLimit (sortFields : List SortField) (op : LimitOperator) :
    Option TopKOperator :=
  op.limit.map fun limit => ⟨sortFields, limit, op.offset⟩

structure CmpItem where
  key : Bytes
  tuple : Tuple

namespace CmpItem

/-- Items with equal keys are never equal: the one that is compared is the greater one. -/
def cmp (self other : CmpItem) : Ordering := (compare self.key other.key).then .gt

/-- `BTreeSet::insert` on the items in their order. -/
def insert (item : CmpItem) : List CmpItem → List CmpItem
  | [] => [item]
  | other :: set =>
    match item.cmp other with
    | .lt => item :: other :: set
    | .eq => other :: set
    | .gt => other :: item.insert set

end CmpItem

/-- The key of a row, field after field. -/
def fullKey (eval : SortEval) (tuple : Tuple) : List SortField → Result Bytes
  | [] => .ok []
  | field :: fields => do
    let value ← eval field.expr tuple
    let key ← field.encode value
    return key ++ (← fullKey eval tuple fields)

def topSort (eval : SortEval) (sortFields : List SortField) (heap : List CmpItem) (tuple : Tuple)
    (keepCount : Nat) : Result (List CmpItem) := do
  let key ← fullKey eval tuple sortFields
  if heap.length < keepCount then return (⟨key, tuple⟩ : CmpItem).insert heap
  else
    match heap.getLast? with
    | some cmpItem =>
      if compare key cmpItem.key = .lt then return (⟨key, tuple⟩ : CmpItem).insert heap.dropLast
      else return heap
    | none => return heap

structure TopK where
  output : Option (List CmpItem)
  sortFields : List SortField
  limit : Nat
  offset : Option Nat
  input : List (Result Tuple)

namespace TopK

def ofOperator (op : TopKOperator) (input : List (Result Tuple)) : TopK :=
  ⟨none, op.sortFields, op.limit, op.offset, input⟩

/-- An addition of `usize`. -/
def keepCount (it : TopK) : Result Nat :=
  if it.offset.getD 0 + it.limit ≤ usizeMax then .ok (it.offset.getD 0 + it.limit)
  else .error (.panic "attempt to add with overflow")

/-- The loop over the input. -/
def fill (eval : SortEval) (sortFields : List SortField) (keepCount : Nat) :
    List (Result Tuple) → List CmpItem → Result (List CmpItem)
  | [], set => .ok set
  | item :: input, set => do
    let tuple ← item
    fill eval sortFields keepCount input (← topSort eval sortFields set tuple keepCount)

def produce (it : TopK) : List CmpItem → Option Tuple × TopK
  | [] => (none, { it with output := some [] })
  | item :: items => (some item.tuple, { it with output := some items })

def nextTuple (eval : SortEval) (it : TopK) : Result (Option Tuple × TopK) :=
  match it.output with
  | some items => .ok (it.produce items)
  | none => do
    let keepCount ← it.keepCount
    let set ← fill eval it.sortFields keepCount it.input []
    return { it with input := [] }.produce (set.drop (it.offset.getD 0))

end TopK

theorem bindNonNegativeLimitValue_lt {expr : Expression} {n : Nat}
    (h : bindNonNegativeLimitValue expr = .ok n) : n < 2 ^ 63 := by
  cases expr with
  | constant value =>
    cases value with
    | int32 v =>
      simp only [bindNonNegativeLimitValue] at h
      split at h
      · cases h
        have := v.toInt_lt
        omega
      · cases h
    | int64 v =>
      simp only [bindNonNegativeLimitValue] at h
      split at h
      · cases h
        have := v.toInt_lt
        omega
      · cases h
    | _ => cases h
  | _ => cases h

theorem mapM_bindNonNegativeLimitValue_lt {expr : Option Expression} {n : Option Nat}
    (h : expr.mapM bindNonNegativeLimitValue = .ok n) : n.getD 0 < 2 ^ 63 := by
  cases expr with
  | none =>
    cases h
    decide
  | some expr =>
    obtain ⟨m, hm, h⟩ := bind_eq_ok.mp h
    cases h
    exact bindNonNegativeLimitValue_lt hm

/-- An offset and a limit that are bound together can be added. -/
theorem LimitOperator.Binds.sum_le {op : LimitOperator} (h : op.Binds) :
    op.offset.getD 0 + op.limit.getD 0 ≤ usizeMax := by
  cases h with
  | parsed h =>
    obtain ⟨limit, offset, hl, ho, h⟩ := bind_bind_eq_ok.mp h
    cases h
    have hl := mapM_bindNonNegativeLimitValue_lt hl
    have ho := mapM_bindNonNegativeLimitValue_lt ho
    rw [usizeMax]
    dsimp only
    omega
  | limited limit =>
    have := limit.toNat_lt
    rw [usizeMax]
    dsimp only [getD]
    omega
  | skipped offset =>
    have := offset.toNat_lt
    rw [usizeMax]
    dsimp only [getD]
    omega

namespace TopK

open StableSort

variable {eval : SortEval} {fields : List SortField} {keys : Tuple → List DataValue}
  {types : List LogicalType} {rows kept : List Tuple} {row : Tuple} {k : Nat}

/-- A row with its key. -/
def itemOf (fields : List SortField) (keys : Tuple → List DataValue) (row : Tuple) : CmpItem :=
  ⟨keyOf fields (keys row), row⟩

theorem fullKey_eq {values : List DataValue} (h : sortValues eval row fields = .ok values) :
    fullKey eval row fields = encodeValues fields values := by
  induction fields generalizing values with
  | nil =>
    cases h
    rfl
  | cons field fields ih =>
    rw [sortValues, List.mapM_cons] at h
    obtain ⟨x, xs, hx, hxs, h⟩ := bind_bind_eq_ok.mp h
    cases h
    rw [fullKey, hx, ok_bind, ih hxs, encodeValues]

theorem fullKey_of_sortable (h : Sortable eval fields keys types rows) (hr : row ∈ rows) :
    fullKey eval row fields = .ok (keyOf fields (keys row)) := by
  obtain ⟨a, -, ha, -⟩ := decides_encodeValues fields h.free (h.fits row hr)
    (h.fits row hr)
  rw [fullKey_eq (h.values row hr), keyOf, ha]

theorem cmp_itemOf (l r : Tuple) :
    (itemOf fields keys l).cmp (itemOf fields keys r) =
      if keyLe fields keys r l then .gt else .lt := by
  rw [keyLe_eq, CmpItem.cmp, itemOf, itemOf]
  cases compare (keyOf fields (keys l)) (keyOf fields (keys r)) <;> rfl

theorem insert_map (row : Tuple) (kept : List Tuple) :
    (itemOf fields keys row).insert (kept.map (itemOf fields keys)) =
      (place (keyLe fields keys) row kept).map (itemOf fields keys) := by
  induction kept with
  | nil => rfl
  | cons other kept ih =>
    rw [List.map_cons, CmpItem.insert, cmp_itemOf, place]
    cases keyLe fields keys other row with
    | true => simp [ih]
    | false => simp

/-- One row of the input. -/
theorem topSort_map (hkey : fullKey eval row fields = .ok (keyOf fields (keys row)))
    (kept : List Tuple) :
    topSort eval fields (kept.map (itemOf fields keys)) row k =
      .ok ((keep (keyLe fields keys) k row kept).map (itemOf fields keys)) := by
  have hitem : (⟨keyOf fields (keys row), row⟩ : CmpItem) = itemOf fields keys row := rfl
  rw [topSort, hkey, ok_bind, hitem, List.length_map, keep, List.getLast?_map,
    insert_map, ← List.map_dropLast, insert_map]
  split
  · rfl
  · cases kept.getLast? with
    | none => rfl
    | some last =>
      dsimp only [map_some, itemOf]
      rw [keyLe_eq]
      by_cases hlt : compare (keyOf fields (keys row)) (keyOf fields (keys last)) = .lt
      · simp [hlt, pure, Except.pure]
      · simp [hlt, pure, Except.pure]

/-- The whole input. -/
theorem fill_map (hkey : ∀ row ∈ rows, fullKey eval row fields = .ok (keyOf fields (keys row)))
    (kept : List Tuple) :
    fill eval fields k (rows.map .ok) (kept.map (itemOf fields keys)) =
      .ok ((rows.foldl (fun kept row => keep (keyLe fields keys) k row kept) kept).map
        (itemOf fields keys)) := by
  induction rows generalizing kept with
  | nil => rfl
  | cons row rows ih =>
    rw [List.map_cons, fill, ok_bind, topSort_map (hkey row (by simp)), ok_bind,
      ih (fun r hr => hkey r (by simp [hr])), List.foldl_cons]

theorem yields_output (it : TopK) (rows : List Tuple) :
    Yields (nextTuple eval) { it with output := some (rows.map (itemOf fields keys)) } rows := by
  induction rows with
  | nil => exact .done rfl
  | cons row rows ih => exact .more rfl ih

theorem nextTuple_output (it : TopK) (items : List CmpItem) :
    nextTuple eval { it with output := some items } = .ok (it.produce items) := by
  cases items <;> rfl

theorem nextTuple_first {it : TopK} {set : List CmpItem} (hout : it.output = none)
    (hcount : it.keepCount = .ok k) (hfill : fill eval it.sortFields k it.input [] = .ok set) :
    nextTuple eval it = .ok ({ it with input := [] }.produce (set.drop (it.offset.getD 0))) := by
  rw [nextTuple, hout]
  dsimp only
  rw [hcount, ok_bind, hfill, ok_bind]
  rfl

/-- What is kept at the end of the input is returned from the offset on. -/
theorem yields_kept (op : TopKOperator) (hsum : op.offset.getD 0 + op.limit ≤ usizeMax)
    (hkey : ∀ row ∈ rows, fullKey eval row op.sortFields = .ok (keyOf op.sortFields (keys row))) :
    Yields (nextTuple eval) (ofOperator op (rows.map .ok))
      ((rows.foldl (fun kept row => keep (keyLe op.sortFields keys)
        (op.offset.getD 0 + op.limit) row kept) []).drop (op.offset.getD 0)) := by
  have hcount : (ofOperator op (rows.map .ok)).keepCount = .ok (op.offset.getD 0 + op.limit) :=
    if_pos hsum
  have hfill := fill_map (k := op.offset.getD 0 + op.limit) hkey []
  rw [List.map_nil] at hfill
  refine (@yields_output eval op.sortFields keys
    { ofOperator op (rows.map .ok) with input := [] } _).of_next_eq ?_
  rw [nextTuple_output, nextTuple_first rfl hcount hfill, ← List.map_drop]
  rfl

/-- What is kept at the end of the input is the part of the sorted rows up to the limit. -/
theorem yields_slice (op : TopKOperator) (hsum : op.offset.getD 0 + op.limit ≤ usizeMax)
    (h : Sortable eval op.sortFields keys types rows) :
    Yields (nextTuple eval) (ofOperator op (rows.map .ok))
      ((sortRows op.sortFields keys rows).slice (op.offset.getD 0) (some op.limit)) := by
  have hkept := foldl_keep (preorders_keyLe op.sortFields keys) (op.offset.getD 0 + op.limit) []
    rows
  rw [List.mergeSort_nil, List.take_nil, List.nil_append, ← h.sortRows_eq] at hkept
  have hout := yields_kept op hsum fun row => fullKey_of_sortable h
  rwa [hkept, List.drop_take, Nat.add_sub_cancel_left] at hout

/-- For every limit that is put above a sort of rows by fields without floats, the rows returned are
those at the positions from the offset on of the stable sort, as many as the limit allows. -/
theorem returns_slice (eval : SortEval) (fields : List SortField) (limit : LimitOperator)
    (op : TopKOperator) (keys : Tuple → List DataValue) (types : List LogicalType)
    (rows : List Tuple) (hlimit : limit.Binds) (hop : TopKOperator.ofLimit fields limit = some op)
    (h : Sortable eval fields keys types rows) :
    Yields (nextTuple eval) (ofOperator op (rows.map .ok))
      ((sortRows fields keys rows).slice (limit.offset.getD 0) limit.limit) := by
  obtain ⟨count, hcount, rfl⟩ := Option.map_eq_some_iff.mp hop
  have hsum := hlimit.sum_le
  rw [hcount, Option.getD_some] at hsum
  rw [hcount]
  exact yields_slice ⟨fields, count, limit.offset⟩ hsum h

theorem returns_slice_nullsFirst :
    Yields (nextTuple firstValue) (ofOperator ⟨nullsFirstDesc, 2, some 1⟩ (fourRows.map .ok))
      ((sortRows nullsFirstDesc Tuple.values fourRows).slice 1 (some 2)) := by
  refine returns_slice firstValue nullsFirstDesc ⟨some 1, some 2⟩ _ Tuple.values [.integer]
    fourRows ?_ rfl sortable_fourRows
  exact @LimitOperator.Binds.parsed _ (some (.constant (.int32 2)))
    (some (.constant (.int64 1))) rfl

end TopK

end KiteSQL
