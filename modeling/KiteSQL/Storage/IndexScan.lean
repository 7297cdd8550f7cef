import KiteSQL.Lib.Slice
import KiteSQL.Storage.IndexIter
import KiteSQL.Storage.TableScan

/-! An index scan yields the rows of its ranges one after the other, up to the first point lookup
that finds nothing. -/
namespace KiteSQL

namespace IndexIter

open Iterate Result IterBounds List

/-- A point lookup, by the primary key or a unique index, that finds nothing. -/
def misses (inner : IndexImplEnum) (range : Range) (rows : List Tuple) : Bool :=
  match inner, range with
  | .primaryKey, .eq _ | .unique, .eq _ => rows.isEmpty
  | _, _ => false

theorem misses_cons (inner : IndexImplEnum) (range : Range) (row : Tuple) (rows : List Tuple) :
    misses inner range (row :: rows) = false := by
  cases inner <;> cases range <;> rfl

/-- The rows of the ranges in front of the first point lookup that misses. -/
def beforeMiss (inner : IndexImplEnum) : List Range → List (List Tuple) → List Tuple
  | range :: ranges, rows :: rowss =>
    if misses inner range rows then [] else rows ++ beforeMiss inner ranges rowss
  | _, _ => []

/-- The rows of the ranges behind it. -/
def afterMiss (inner : IndexImplEnum) : List Range → List (List Tuple) → List Tuple
  | range :: ranges, rows :: rowss =>
    if misses inner range rows then rowss.flatten else afterMiss inner ranges rowss
  | _, _ => []

theorem beforeMiss_append_afterMiss (inner : IndexImplEnum) {ranges : List Range}
    {rowss : List (List Tuple)} (h : ranges.length = rowss.length) :
    beforeMiss inner ranges rowss ++ afterMiss inner ranges rowss = rowss.flatten := by
  induction ranges generalizing rowss with
  | nil =>
    obtain rfl := length_eq_zero_iff.mp h.symm
    rfl
  | cons range ranges ih =>
    obtain _ | ⟨rows, rowss⟩ := rowss
    · cases h
    · rw [beforeMiss, afterMiss, flatten_cons]
      split
      · cases rows with
        | nil => rfl
        | cons row rows => simp_all [misses_cons]
      · rw [append_assoc, ih (by simpa using h)]

variable [DecimalLayout] {it : IndexIter} {params : IndexImplParams} {inner : IndexImplEnum}
  {ranges : List Range} {rowss : List (List Tuple)} {rows out P : List Tuple} {iter : List KeyValue}
  {bounds : IterBounds} {exhausted : IterBounds → Result (Option Tuple × IndexIter)}
  {res : Result (Option Tuple × IndexIter)} {value : DataValue}

/-- The rows that one range selects. -/
def selected (params : IndexImplParams) (inner : IndexImplEnum) : Range → Result (List Tuple)
  | .scope min max => do
    let iter ← params.openScope inner min max
    iter.mapM (params.indexLookup inner)
  | .eq value => do
    match ← params.eqToRes inner value with
    | .hit tuple => return [tuple]
    | .miss => return []
    | .scope iter => iter.mapM (params.indexLookup inner)
  | .dummy | .sortedRanges _ => .ok []

/-- The rows that are found for each of the ranges. -/
def Selects (params : IndexImplParams) (inner : IndexImplEnum) (ranges : List Range)
    (rowss : List (List Tuple)) : Prop :=
  List.Forall₂ (fun range rows => selected params inner range = .ok rows) ranges rowss

/-- The rows that the entries of an opened range stand for. -/
def Finds (params : IndexImplParams) (inner : IndexImplEnum) (iter : List KeyValue)
    (rows : List Tuple) : Prop :=
  List.Forall₂ (fun entry row => params.indexLookup inner entry = .ok row) iter rows

theorem finds_of_mapM (h : iter.mapM (params.indexLookup inner) = .ok rows) :
    Finds params inner iter rows := by
  induction iter generalizing rows with
  | nil =>
    cases h
    exact .nil
  | cons entry iter ih =>
    obtain ⟨row, rows, hr, hrs, rfl⟩ := Traverse.mapM_cons_eq_ok.mp h
    exact .cons hr (ih hrs)

/-- The rows still to come from a state of the iterator. -/
inductive Pending (params : IndexImplParams) (inner : IndexImplEnum) :
    IndexIter → List Tuple → Prop
  | init {bounds : IterBounds} {ranges : List Range} {rowss : List (List Tuple)} :
      Selects params inner ranges rowss →
      Pending params inner ⟨bounds, params, inner, ranges, .init⟩ (beforeMiss inner ranges rowss)
  | range {bounds : IterBounds} {ranges : List Range} {rowss : List (List Tuple)}
      {iter : List KeyValue} {rows : List Tuple} :
      Finds params inner iter rows → Selects params inner ranges rowss →
      Pending params inner ⟨bounds, params, inner, ranges, .range iter⟩
        (rows ++ beforeMiss inner ranges rowss)

/-- A call returns the first of the rows past the offset and leaves the others. -/
def Serves (params : IndexImplParams) (inner : IndexImplEnum) (bounds : IterBounds)
    (P : List Tuple) (res : Result (Option Tuple × IndexIter)) : Prop :=
  match P.drop bounds.offset with
  | [] => ∃ it, res = .ok (none, it)
  | row :: rest => ∃ it, res = .ok (some row, it) ∧ Pending params inner it rest ∧
      it.bounds = ⟨0, bounds.limit.map (· - 1)⟩

theorem serves_none (hP : P.length ≤ bounds.offset) (h : res = .ok (none, it)) :
    Serves params inner bounds P res := by
  rw [Serves, drop_eq_nil_of_le hP]
  exact ⟨it, h⟩

theorem serves_some {row : Tuple} {limit : Option Nat} (h : res = .ok (some row, it))
    (hpending : Pending params inner it P) (hb : it.bounds = ⟨0, limit.map (· - 1)⟩) :
    Serves params inner ⟨0, limit⟩ (row :: P) res :=
  ⟨it, h, hpending, hb⟩

theorem serves_scan (hrows : Finds params inner iter rows)
    (hranges : Selects params inner ranges rowss)
    (hex : ∀ offset, Serves params inner ⟨offset, bounds.limit⟩ (beforeMiss inner ranges rowss)
      (exhausted ⟨offset, bounds.limit⟩)) (hp : it.params = params) (hi : it.inner = inner) :
    Serves params inner bounds (rows ++ beforeMiss inner ranges rowss)
      (it.scan ranges iter bounds exhausted) := by
  subst hp hi
  induction hrows generalizing bounds with
  | nil => exact hex bounds.offset
  | @cons entry row iter rows hr hrows ih =>
    obtain ⟨offset, limit⟩ := bounds
    cases offset with
    | succ n => exact @ih ⟨n, limit⟩ hex
    | zero =>
      refine serves_some ?_ (.range hrows hranges) rfl
      rw [scan, takeEntry, if_neg (by simp)]
      dsimp only
      rw [hr]
      rfl

/-- Only a lookup by the primary key or a unique index can miss. -/
theorem eqToRes_miss (h : params.eqToRes inner value = .ok .miss) :
    misses inner (.eq value) [] = true := by
  cases inner with
  | primaryKey | unique => rfl
  | normal | composite | covered =>
    obtain ⟨_, _, -, -, h⟩ := bind_bind_eq_ok.mp h
    obtain ⟨_, -, h⟩ := bind_eq_ok.mp h
    cases h

/-- A lookup that opens a scan is not a point lookup. -/
theorem eqToRes_scope (h : params.eqToRes inner value = .ok (.scope iter)) :
    misses inner (.eq value) rows = false := by
  cases inner with
  | normal | composite | covered => rfl
  | primaryKey =>
    obtain ⟨found, -, h⟩ := bind_eq_ok.mp h
    cases found <;> cases h
  | unique =>
    obtain ⟨key, -, h⟩ := bind_eq_ok.mp h
    cases hk : params.tx[key]? with
    | none =>
      simp only [hk] at h
      cases h
    | some bytes =>
      simp only [hk] at h
      obtain ⟨_, -, h⟩ := bind_eq_ok.mp h
      cases h

theorem serves_nextFrom (hranges : Selects params inner ranges rowss) (hp : it.params = params)
    (hi : it.inner = inner) :
    Serves params inner bounds (beforeMiss inner ranges rowss) (it.nextFrom ranges bounds) := by
  induction hranges generalizing bounds with
  | nil => exact serves_none (Nat.zero_le _) rfl
  | @cons range rows ranges rowss hsel hranges ih =>
    have hex : ∀ offset, Serves params inner ⟨offset, bounds.limit⟩
        (beforeMiss inner ranges rowss) (it.nextFrom ranges ⟨offset, bounds.limit⟩) :=
      fun offset => ih
    rw [beforeMiss]
    cases range with
    | dummy | sortedRanges rs =>
      cases hsel
      rw [if_neg (by cases inner <;> simp [misses])]
      exact ih
    | scope min max =>
      obtain ⟨iter, hiter, hsel⟩ := bind_eq_ok.mp hsel
      rw [if_neg (by cases inner <;> simp [misses]), nextFrom, hp, hi, hiter, ok_bind]
      exact serves_scan (finds_of_mapM hsel) hranges hex hp hi
    | eq value =>
      obtain ⟨res, hres, hsel⟩ := bind_eq_ok.mp hsel
      rw [nextFrom, hp, hi, hres, ok_bind]
      cases res with
      | miss =>
        cases hsel
        rw [if_pos (eqToRes_miss hres)]
        exact serves_none (Nat.zero_le _) rfl
      | scope iter =>
        rw [if_neg (by simp [eqToRes_scope hres])]
        exact serves_scan (finds_of_mapM hsel) hranges hex hp hi
      | hit row =>
        cases hsel
        rw [if_neg (by simp [misses_cons])]
        obtain ⟨offset, limit⟩ := bounds
        cases offset with
        | succ n => exact hex n
        | zero =>
          subst hp hi
          exact serves_some rfl (.init hranges) rfl

theorem serves_nextTupleInto (h : Pending params inner it P) (hl : it.bounds.limit ≠ some 0) :
    Serves params inner it.bounds P it.nextTupleInto := by
  cases h with
  | init hranges =>
    rw [nextTupleInto, if_neg (by simpa [limitReached] using hl)]
    exact serves_nextFrom hranges rfl rfl
  | range hrows hranges =>
    rw [nextTupleInto, if_neg (by simpa [limitReached] using hl)]
    exact serves_scan hrows hranges (fun offset => serves_nextFrom hranges rfl rfl) rfl rfl

/-- Calling the iterator until it reports the end yields what the bounds leave of the pending
rows. -/
theorem Pending.yields (h : Pending params inner it P) :
    Yields nextTupleInto it (P.slice it.bounds.offset it.bounds.limit) := by
  refine yields_slice (R := fun it P offset limit =>
    Pending params inner it P ∧ it.bounds = ⟨offset, limit⟩) ?_ ?_ ⟨h, rfl⟩
  · rintro it P offset limit ⟨h, hb⟩ hend
    by_cases hl : it.bounds.limit = some 0
    · refine ⟨{ it with state := .over }, ?_⟩
      rw [nextTupleInto, if_pos (by simpa [limitReached] using hl)]
    · have hs := serves_nextTupleInto h hl
      rw [hb] at hl hs
      have hlen : P.length ≤ offset := hend.resolve_left hl
      rw [Serves, drop_eq_nil_of_le hlen] at hs
      exact hs
  · rintro it P offset limit row rest ⟨h, hb⟩ hl hd
    have hs := serves_nextTupleInto h (by rwa [hb])
    rw [hb, Serves, hd] at hs
    obtain ⟨it', hn, hp, hb'⟩ := hs
    exact ⟨it', hn, hp, hb'⟩

/-- The entries that a range is read from, where it is not a point lookup. -/
def Opens (params : IndexImplParams) (inner : IndexImplEnum) : Range → List KeyValue → Prop
  | .scope min max, entries => params.openScope inner min max = .ok entries
  | .eq value, entries => params.eqToRes inner value = .ok (.scope entries)
  | _, _ => False

end IndexIter

theorem readByIndex_eq_ok [DecimalLayout] {store : Store} {table : TableCatalog}
    {bounds : IterBounds} {columns : List ColumnCatalog} {indexMeta : IndexMeta}
    {ranges : List Range} {withPk : Bool} {covered : Option (List TupleValueSerializableImpl)}
    {mapping : Option (List Nat)} {it : IndexIter}
    (h : store.readByIndex table bounds columns indexMeta ranges withPk covered mapping = .ok it) :
    it = ⟨bounds, it.params, it.inner, ranges, .init⟩ := by
  obtain ⟨⟨inner, ds, cover⟩, -, h⟩ := Result.bind_eq_ok.mp h
  cases h
  rfl

/-- An index scan yields the requested part of the rows of its ranges exactly when no point
lookup that misses hides a row of that part. -/
theorem readByIndex_yields_slice_iff [DecimalLayout] {store : Store} {table : TableCatalog}
    {bounds : IterBounds} {columns : List ColumnCatalog} {indexMeta : IndexMeta}
    {ranges : List Range} {withPk : Bool} {covered : Option (List TupleValueSerializableImpl)}
    {mapping : Option (List Nat)} {it : IndexIter} {rowss : List (List Tuple)}
    (h : store.readByIndex table bounds columns indexMeta ranges withPk covered mapping = .ok it)
    (hsel : IndexIter.Selects it.params it.inner ranges rowss) :
    ∃ out, Iterate.Yields IndexIter.nextTupleInto it out ∧
      (out = rowss.flatten.slice bounds.offset bounds.limit ↔
        IndexIter.afterMiss it.inner ranges rowss = [] ∨
        (∃ n, bounds.limit = some n ∧
          (n = 0 ∨ bounds.offset + n ≤ (IndexIter.beforeMiss it.inner ranges rowss).length)) ∨
        rowss.flatten.length ≤ bounds.offset) := by
  have hit := readByIndex_eq_ok h
  have hpending : IndexIter.Pending it.params it.inner
      ⟨bounds, it.params, it.inner, ranges, .init⟩ _ := .init hsel
  have hy := hpending.yields
  rw [← hit] at hy
  refine ⟨_, hy, ?_⟩
  rw [← IndexIter.beforeMiss_append_afterMiss it.inner hsel.length_eq, hit]
  simpa using List.slice_eq_slice_append_iff

/-- The primary key index of `threeColumns`. -/
def primaryIndex : IndexMeta := ⟨0, [1], .integer, .integer, "pk_index", .primaryKey false⟩

theorem readByIndex_yields_found_before_missed :
    ∃ it out, (oneRow [.int32 1, .int32 2, .int32 3]).readByIndex threeColumns ⟨0, none⟩
        threeColumns.columns primaryIndex [.eq (.int32 1), .eq (.int32 5)] true none none =
          .ok it ∧
      Iterate.Yields (@IndexIter.nextTupleInto .flagsFirst) it out ∧
      out = [⟨some (.int32 1), [.int32 1, .int32 2, .int32 3]⟩] := by
  let _ := DecimalLayout.flagsFirst
  obtain ⟨out, hy, h⟩ := @readByIndex_yields_slice_iff .flagsFirst
    (oneRow [.int32 1, .int32 2, .int32 3]) threeColumns ⟨0, none⟩ threeColumns.columns
    primaryIndex [.eq (.int32 1), .eq (.int32 5)] true none none _
    [[⟨some (.int32 1), [.int32 1, .int32 2, .int32 3]⟩], []] rfl
    (by exact .cons rfl (.cons rfl .nil))
  exact ⟨_, out, rfl, hy, h.mpr (.inl rfl)⟩

/-- The lookup of a key without a row ends the scan in front of a row that is there. -/
theorem readByIndex_missed_before_found :
    let _ := DecimalLayout.flagsFirst
    ∃ it, (oneRow [.int32 1, .int32 2, .int32 3]).readByIndex threeColumns ⟨0, none⟩
        threeColumns.columns primaryIndex [.eq (.int32 5), .eq (.int32 1)] true none none =
          .ok it ∧
      IndexIter.Selects it.params it.inner [.eq (.int32 5), .eq (.int32 1)]
        [[], [⟨some (.int32 1), [.int32 1, .int32 2, .int32 3]⟩]] ∧
      Iterate.Yields IndexIter.nextTupleInto it [] := by
  let _ := DecimalLayout.flagsFirst
  refine ⟨_, rfl, ?_, ?_⟩
  · exact .cons rfl (.cons rfl .nil)
  · exact .done rfl

end KiteSQL
