import KiteSQL.Lib.StableSort
import KiteSQL.Planner.Sort

/-! The keys of bytes that rows are sorted by compare as the values of the sort fields do. -/
namespace KiteSQL

open LexCode DataValue List StableSort

namespace SortField

/-- The part of a key that one field writes; a descending field complements what follows the
tag. -/
def encode (field : SortField) (value : DataValue) : Result Bytes := do
  let key ← value.memcomparableEncodeWithNullOrder field.nullsFirst
  if !field.asc && decide (1 < key.length) then
    return key.take 1 ++ (key.drop 1).map (· ^^^ 0xFF)
  else return key

variable {field : SortField} {x y : DataValue} {t : LogicalType}

/-- The tag of a value under the order of NULL that the field asks for. -/
def tag (field : SortField) (isNull : Bool) : UInt8 :=
  if isNull != field.nullsFirst then nullTag else notNullTag

/-- What follows the tag. -/
def direct (field : SortField) (body : Bytes) : Bytes :=
  if field.asc then body else body.map (· ^^^ 0xFF)

theorem encode_null : field.encode .null = .ok [field.tag true] := by
  unfold encode memcomparableEncodeWithNullOrder tagged tag
  cases field.nullsFirst <;> cases field.asc <;> rfl

theorem encode_of_body {body : Bytes} (hn : x.isNull = false) (hb : memcomparableBody x = .ok body)
    : field.encode x = .ok (field.tag false :: field.direct body) := by
  unfold encode memcomparableEncodeWithNullOrder tagged tag direct
  rw [hb, hn]
  cases body with
  | nil => cases field.nullsFirst <;> cases field.asc <;> rfl
  | cons b body => cases field.nullsFirst <;> cases field.asc <;> simp [Result.ok_bind]

theorem compare_xor (x y : UInt8) : compare (x ^^^ 0xFF) (y ^^^ 0xFF) = (compare x y).swap := by
  have hnot : ∀ c : UInt8, c ^^^ 0xFF = ~~~c := by
    intro c
    refine UInt8.eq_of_toBitVec_eq ?_
    exact BitVec.xor_allOnes
  rw [hnot, hnot, compare_not]

theorem decides_direct {a b : Bytes} {o : Ordering} (h : Decides a b o) :
    Decides (field.direct a) (field.direct b) (if field.asc then o else o.swap) := by
  unfold direct
  split
  · exact h
  · exact h.map_swap compare_xor

/-- What one field writes for two values that are not NULL decides their order under the field if
their bodies do. -/
theorem decides_encode_of_agree (nx : x.isNull = false) (ny : y.isNull = false)
    (h : Agree (memcomparableBody x) (memcomparableBody y) (partialCmp x y)) :
    ∃ a b, field.encode x = .ok a ∧ field.encode y = .ok b ∧
      Decides a b (field.compareValues x y) := by
  obtain ⟨u, v, p, hu, hv, hp, hd⟩ := h
  refine ⟨_, _, encode_of_body nx hu, encode_of_body ny hv, ?_⟩
  unfold compareValues
  rw [nx, ny, hp]
  exact (decides_direct hd).cons _

/-- What one field writes for two values decides their order under the field. -/
theorem decides_encode (hx : Fits x t) (hy : Fits y t) (ht : t.floatFree = true) :
    ∃ a b, field.encode x = .ok a ∧ field.encode y = .ok b ∧
      Decides a b (field.compareValues x y) := by
  obtain ⟨u, hu⟩ := hx.body_ok
  obtain ⟨v, hv⟩ := hy.body_ok
  cases nx : x.isNull with
  | true =>
    obtain rfl := isNull_iff.mp nx
    cases ny : y.isNull with
    | true =>
      obtain rfl := isNull_iff.mp ny
      refine ⟨_, _, encode_null, encode_null, (decides_singleton _ _).of_eq ?_⟩
      unfold compareValues
      rw [nx]
      cases field.asc <;> simp [partialCmp, Std.ReflOrd.compare_self]
    | false =>
      refine ⟨_, _, encode_null, encode_of_body ny hv, ?_⟩
      unfold compareValues tag
      rw [nx, ny]
      cases field.nullsFirst
      · exact decides_cons_of_ne (x := nullTag) (y := notNullTag) (by decide)
      · exact decides_cons_of_ne (x := notNullTag) (y := nullTag) (by decide)
  | false =>
    cases ny : y.isNull with
    | true =>
      obtain rfl := isNull_iff.mp ny
      refine ⟨_, _, encode_of_body nx hu, encode_null, ?_⟩
      unfold compareValues tag
      rw [nx, ny]
      cases field.nullsFirst
      · exact decides_cons_of_ne (x := notNullTag) (y := nullTag) (by decide)
      · exact decides_cons_of_ne (x := nullTag) (y := notNullTag) (by decide)
    | false => exact decides_encode_of_agree nx ny (hx.agree_body hy ht nx ny)

end SortField

/-- The part of a key that some fields write for their values. -/
def encodeValues : List SortField → List DataValue → Result Bytes
  | field :: fields, value :: values => do
    let key ← field.encode value
    return key ++ (← encodeValues fields values)
  | _, _ => .ok []

variable {fields : List SortField} {types : List LogicalType} {ls rs : List DataValue}

theorem decides_encodeValues (fields : List SortField)
    (hfree : ∀ t ∈ types, LogicalType.floatFree t = true)
    (hl : Forall₂ Fits ls types) (hr : Forall₂ Fits rs types) :
    ∃ a b, encodeValues fields ls = .ok a ∧ encodeValues fields rs = .ok b ∧
      Decides a b (compareSortKeys fields ls rs) := by
  induction fields generalizing ls rs types with
  | nil => exact ⟨[], [], rfl, rfl, decides_nil⟩
  | cons field fields ih =>
    cases hl with
    | nil =>
      cases hr
      exact ⟨[], [], rfl, rfl, decides_nil⟩
    | @cons x t xs types hx hxs =>
      cases hr with
      | @cons y _ ys _ hy hys =>
        obtain ⟨a, b, ha, hb, hd⟩ := field.decides_encode hx hy (hfree t (by simp))
        obtain ⟨as, bs, has, hbs, hds⟩ := ih (fun t h => hfree t (by simp [h])) hxs hys
        refine ⟨a ++ as, b ++ bs, ?_, ?_, hd.append hds⟩
        · simp [encodeValues, ha, has]
        · simp [encodeValues, hb, hbs]

/-- The key of values that can be encoded. -/
def keyOf (fields : List SortField) (values : List DataValue) : Bytes :=
  match encodeValues fields values with
  | .ok key => key
  | .error _ => []

theorem compare_keyOf (hfree : ∀ t ∈ types, LogicalType.floatFree t = true)
    (hl : Forall₂ Fits ls types) (hr : Forall₂ Fits rs types) :
    compare (keyOf fields ls) (keyOf fields rs) = compareSortKeys fields ls rs := by
  obtain ⟨a, b, ha, hb, hd⟩ := decides_encodeValues fields hfree hl hr
  rw [keyOf, keyOf, ha, hb]
  exact hd.compare_eq

section Rows
variable {α : Type} {keys : α → List DataValue} {rows : List α} {l r : α}

/-- The stable sort of rows by what the sort fields are on them. -/
def sortRows (fields : List SortField) (keys : α → List DataValue) (rows : List α) : List α :=
  rows.mergeSort fun l r => (compareSortKeys fields (keys l) (keys r)).isLE

/-- Rows in the order of their keys. -/
def keyLe (fields : List SortField) (keys : α → List DataValue) (l r : α) : Bool :=
  (compare (keyOf fields (keys l)) (keyOf fields (keys r))).isLE

theorem preorders_keyLe (fields : List SortField) (keys : α → List DataValue) :
    Preorders (keyLe fields keys) :=
  preorders_of_key fun row => keyOf fields (keys row)

theorem keyLe_eq (l r : α) : keyLe fields keys r l =
    !decide (compare (keyOf fields (keys l)) (keyOf fields (keys r)) = .lt) := by
  have hswap : compare (keyOf fields (keys r)) (keyOf fields (keys l)) =
      (compare (keyOf fields (keys l)) (keyOf fields (keys r))).swap := Std.OrientedCmp.eq_swap
  rw [keyLe, hswap]
  cases compare (keyOf fields (keys l)) (keyOf fields (keys r)) <;> rfl

/-- Each sort field has values of one type without floats on all rows. -/
structure Typed (types : List LogicalType) (keys : α → List DataValue) (rows : List α) : Prop where
  free : ∀ t ∈ types, LogicalType.floatFree t = true
  fits : ∀ row ∈ rows, List.Forall₂ Fits (keys row) types

theorem Typed.compare_eq (h : Typed types keys rows) (hl : l ∈ rows) (hr : r ∈ rows) :
    compareSortKeys fields (keys l) (keys r) =
      compare (keyOf fields (keys l)) (keyOf fields (keys r)) :=
  (compare_keyOf h.free (h.fits l hl) (h.fits r hr)).symm

/-- Rows are sorted by their keys as they are by the values of the sort fields. -/
theorem Typed.sortRows_eq (h : Typed types keys rows) :
    sortRows fields keys rows = rows.mergeSort (keyLe fields keys) := by
  refine mergeSort_congr fun l hl r hr => ?_
  rw [keyLe, h.compare_eq hl hr]

end Rows

/-- How the expressions of sort fields are evaluated on a row. -/
abbrev SortEval := Expression → Tuple → Result DataValue

/-- What the sort fields are on a row. -/
def sortValues (eval : SortEval) (tuple : Tuple) (fields : List SortField) :
    Result (List DataValue) := fields.mapM fun field => eval field.expr tuple

/-- The sort fields have values on all rows, each field of one type without floats. -/
structure Sortable (eval : SortEval) (fields : List SortField) (keys : Tuple → List DataValue)
    (types : List LogicalType) (rows : List Tuple) : Prop extends Typed types keys rows where
  values : ∀ row ∈ rows, sortValues eval row fields = .ok (keys row)

/-- Every field is the first value of the row. -/
def firstValue : SortEval := fun _ row => .ok (row.values.headD .null)

def nullsFirstDesc : List SortField := [⟨.constant .null, false, true⟩]

def fourRows : List Tuple :=
  [⟨some (.int32 1), [.int32 7]⟩, ⟨some (.int32 2), [.null]⟩, ⟨some (.int32 3), [.int32 8]⟩,
    ⟨some (.int32 4), [.int32 7]⟩]

theorem sortable_fourRows :
    Sortable firstValue nullsFirstDesc Tuple.values [.integer] fourRows where
  free := by decide
  values := by
    intro row hr
    simp only [fourRows, mem_cons, not_mem_nil, or_false] at hr
    rcases hr with rfl | rfl | rfl | rfl <;> rfl
  fits := by
    intro row hr
    simp only [fourRows, mem_cons, not_mem_nil, or_false] at hr
    rcases hr with rfl | rfl | rfl | rfl
    · exact .cons (.int32 7) .nil
    · exact .cons (.null _) .nil
    · exact .cons (.int32 8) .nil
    · exact .cons (.int32 7) .nil

end KiteSQL
