import KiteSQL.Execution.Constraints
import KiteSQL.Execution.Overwrite

/-! COPY FROM a file of records. -/
namespace KiteSQL

open TableCodec Function IndexedRows TableCatalog Stateful DataValue
open List Result ColumnCatalog Traverse

section Model

variable [Conversions]

/-- Every field is cast from a text to the type of its column. -/
def castFields : List LogicalType → List String → Result (List DataValue)
  | _, [] => .ok []
  | [], _ :: _ => .error (.panic "index out of bounds")
  | ty :: types, field :: fields => do
    let value ← (DataValue.utf8 field (.variable none) .characters).cast ty
    return value :: (← castFields types fields)

def buildWithRow (columnTypes : List LogicalType) (pkIndices : List Nat) (row : List String) :
    Result Tuple := do
  let values ← castFields columnTypes row
  if values.length ≠ columnTypes.length then .error (.error (.misMatch "types" "values"))
  else do
    let pk ← Tuple.primaryProjection pkIndices values
    return ⟨some pk, values⟩

namespace CopyFromFile

/-- A record may have one more field, which is empty. -/
def checkFields (columnCount : Nat) (record : List String) : Result Unit :=
  if record.length = columnCount ∨
      record.length = columnCount + 1 ∧ record[columnCount]? = some "" then .ok ()
  else .error (.error (.misMatch "columns" "values"))

variable [DecimalLayout]

def copyRecord (tableName : String) (columnTypes : List LogicalType) (pkIndices : List Nat)
    (serializers : List TupleValueSerializableImpl) (size : Nat)
    (record : Result (List String)) : Exec Nat := do
  let record ← record
  checkFields columnTypes.length record
  let chunk ← buildWithRow columnTypes pkIndices record
  Stateful.write fun store => store.appendTuple tableName chunk serializers false
  return size + 1

def copyTable (table : TableCatalog) (columnTypes : List LogicalType)
    (serializers : List TupleValueSerializableImpl)
    (source : Result (List (Result (List String)))) : Exec Nat := do
  let records ← source
  records.foldlM (copyRecord table.name columnTypes table.primaryKeyIndices serializers) 0

/-- The source is the opened file, or the error of opening it, with a result for every record. -/
def nextTuple (schemaRef : List ColumnCatalog) (table : Option TableCatalog)
    (source : Result (List (Result (List String)))) : Exec Tuple := do
  let columnTypes := schemaRef.map (·.datatype)
  let serializers ← (columnTypes.mapM LogicalType.serializable : Result _)
  match table with
  | none => liftM (Except.error (Fault.error .tableNotFound) : Result Tuple)
  | some table => do
    let size ← copyTable table columnTypes serializers source
    return buildResult (toString size)

end CopyFromFile

end Model

section Fields

variable [Conversions] {column : ColumnCatalog} {field : String} {fields : List String}
  {v : DataValue} {values : List DataValue} {types : List LogicalType}
  {s : TupleValueSerializableImpl}

/-- A field for a DECIMAL column has no more digits than the column declares. -/
def DecimalFits (field : String) (ty : LogicalType) : Prop :=
  ∀ precision scale d, ty = .decimal precision scale → Conversions.parseDecimal field = .ok d →
    (DataValue.decimal d).checkLen ty = .ok ()

/-- What a column keeps of a field respects the column unless the field has too many digits. -/
theorem admits_field_iff
    (hc : (utf8 field (.variable none) .characters).cast column.datatype = .ok v)
    (hs : column.datatype.serializable = .ok s) :
    Admits (v.kept column.datatype) column ↔ DecimalFits field column.datatype := by
  rw [cast_text] at hc
  have hnull : column.datatype ≠ .sqlNull := by
    intro he
    rw [he] at hs
    cases hs
  obtain ⟨hn, hlen⟩ := parseText_spec hc hnull
  have hkept : v.kept column.datatype = v.stored column.datatype := by
    rw [kept, parseText_retype hc]
  unfold Admits DecimalFits
  rw [isNull_kept, hn, hkept]
  generalize column.datatype = ty at hc hlen
  constructor
  · rintro ⟨hok, -⟩ precision scale d rfl hd
    obtain ⟨d', hd', h⟩ := bind_eq_ok.mp hc
    rw [hd] at hd'
    cases hd'
    cases h
    exact hok
  · intro hfits
    refine ⟨checkLen_stored ?_, by simp⟩
    by_cases hdec : ∃ precision scale, ty = .decimal precision scale
    · obtain ⟨precision, scale, rfl⟩ := hdec
      obtain ⟨d, hd, h⟩ := bind_eq_ok.mp hc
      cases h
      exact hfits precision scale d rfl hd
    · exact hlen fun precision scale he => hdec ⟨precision, scale, he⟩

theorem castFields_cons {ty : LogicalType}
    (h : castFields (ty :: types) fields = .ok values) (hlen : values.length = types.length + 1) :
    ∃ field rest v vs, fields = field :: rest ∧ values = v :: vs ∧
      (utf8 field (.variable none) .characters).cast ty = .ok v ∧
      castFields types rest = .ok vs ∧ vs.length = types.length := by
  cases fields with
  | nil =>
    cases h
    cases hlen
  | cons field fields =>
    obtain ⟨v, vs, hv, hvs, h⟩ := bind_bind_eq_ok.mp h
    cases h
    exact ⟨field, fields, v, vs, rfl, rfl, hv, hvs, by simpa using hlen⟩

/-- What a table keeps of a record respects the columns unless a DECIMAL has too many digits. -/
theorem admits_fields_iff {columns : List ColumnCatalog} {ss : List TupleValueSerializableImpl}
    (h : castFields (columns.map (·.datatype)) fields = .ok values)
    (hlen : values.length = columns.length)
    (hs : (columns.map (·.datatype)).mapM LogicalType.serializable = .ok ss) :
    Forall₂ Admits (Tuple.keptAll values (columns.map (·.datatype))) columns ↔
      ∀ p ∈ fields.zip (columns.map (·.datatype)), DecimalFits p.1 p.2 := by
  induction columns generalizing fields values ss with
  | nil =>
    cases values with
    | nil => simp [Tuple.keptAll]
    | cons => cases hlen
  | cons column columns ih =>
    obtain ⟨field, rest, v, vs, rfl, rfl, hv, hvs, hl⟩ := castFields_cons h (by simpa using hlen)
    obtain ⟨s, ss', hst, hss, rfl⟩ := mapM_cons_eq_ok.mp hs
    rw [map_cons, Tuple.keptAll, forall₂_cons, admits_field_iff hv hst,
      ih hvs (by simpa using hl) hss, zip_cons_cons, forall_mem_cons]

theorem declaresChar_castFields (h : castFields types fields = .ok values)
    (hlen : values.length = types.length) : Forall₂ declaresChar values types := by
  induction types generalizing fields values with
  | nil =>
    cases values with
    | nil => exact .nil
    | cons => cases hlen
  | cons ty types ih =>
    obtain ⟨field, rest, v, vs, rfl, rfl, hv, hvs, hl⟩ := castFields_cons h (by simpa using hlen)
    exact .cons (cast_declaresChar hv) (ih hvs hl)

end Fields

namespace CopyFromFile

section Rows

variable [DecimalLayout] {table : TableCatalog} {store store' : Store} {rows : List (Bytes × Bytes)}

/-- Rows that COPY adds have no index entries. -/
theorem indexesExact_iff (hexact : table.IndexesExact store)
    (habsent : ∀ row ∈ rows, store.space table.name none row.1 = none)
    (hrows : ∀ k bytes, store'.space table.name none k = some bytes ↔
      store.space table.name none k = some bytes ∨ (k, bytes) ∈ rows)
    (hframe : ∀ part, part ≠ none → store'.space table.name part = store.space table.name part) :
    table.IndexesExact store' ↔ rows = [] ∨ ∀ index ∈ table.indexes, index.isPrimary = true := by
  constructor
  · intro hexact'
    by_contra hno
    push Not at hno
    obtain ⟨hne, index, hi, hp⟩ := hno
    have hp : index.isPrimary = false := by simpa using hp
    obtain ⟨⟨k, bytes⟩, hmem⟩ := exists_mem_of_ne_nil rows hne
    obtain ⟨e, v, -, hv, hn⟩ := (hexact' index hi hp).listed k bytes
      ((hrows k bytes).mpr (Or.inr hmem))
    rw [hframe _ (by simp)] at hv
    obtain ⟨k', r, hn', hr, -⟩ := (hexact index hi hp).points e v hv
    rw [hn] at hn'
    cases hn'
    rw [habsent _ hmem] at hr
    cases hr
  · rintro (rfl | hprimary) index hi hp
    · have hsame : store'.space table.name none = store.space table.name none := by
        funext k
        refine Option.ext fun bytes => ?_
        simpa using hrows k bytes
      rw [hsame, hframe _ (by simp)]
      exact hexact index hi hp
    · rw [hprimary index hi] at hp
      cases hp

variable [Conversions] {ss : List TupleValueSerializableImpl} {n m : Nat}
  {record : Result (List String)} {records : List (Result (List String))}
  {source : Result (List (Result (List String)))} {result : Tuple}

/-- No field becomes a text longer than a length field can say. -/
def Short (table : TableCatalog) (record : Result (List String)) : Prop :=
  ∀ fields values, record = .ok fields → castFields table.columnTypes fields = .ok values →
    ∀ v ∈ values, v.writtenLen < 2 ^ 32

/-- The key and the bytes of the row that a record becomes. -/
def Copies (table : TableCatalog) (record : Result (List String)) (row : Bytes × Bytes) : Prop :=
  ∃ fields values, record = .ok fields ∧ castFields table.columnTypes fields = .ok values ∧
    table.keyOf values = .ok row.1 ∧ table.Stores values row.2

theorem copyRecord_spec (hs : table.serializers = .ok ss) (hshort : Short table record)
    (h : copyRecord table.name table.columnTypes table.primaryKeyIndices ss n record store =
      (.ok m, store')) :
    ∃ k bytes, Copies table record (k, bytes) ∧ store.space table.name none k = none ∧
      store'.space table.name none = update (store.space table.name none) k (some bytes) ∧
      ∀ part, part ≠ none → store'.space table.name part = store.space table.name part := by
  obtain ⟨fields, hrecord, h⟩ := liftM_bind_eq_ok.mp h
  obtain ⟨_, -, h⟩ := liftM_bind_eq_ok.mp h
  obtain ⟨chunk, hchunk, h⟩ := liftM_bind_eq_ok.mp h
  obtain ⟨_, hwrite, -⟩ := bind_pure_eq_ok.mp h
  obtain ⟨values, hvalues, hchunk⟩ := bind_eq_ok.mp hchunk
  split at hchunk
  · cases hchunk
  · next hlen =>
    rw [not_not] at hlen
    obtain ⟨pk, hpk, hchunk⟩ := bind_eq_ok.mp hchunk
    cases hchunk
    obtain ⟨_, k, bytes, hid, -, hk, hb, hfree, hrows, hframe⟩ :=
      appendTuple_space (write_eq_ok.mp hwrite)
    cases hid
    refine ⟨k, bytes, ⟨fields, values, hrecord, hvalues, ?_, ?_⟩, hfree rfl, hrows, hframe⟩
    · rw [TableCatalog.keyOf, hpk]
      exact hk
    · exact stores_of_serializeTo hs (declaresChar_castFields hvalues hlen)
        (hshort fields values hrecord hvalues) hb

/-- The rows after the loop are the rows before and one for each record, under new keys. -/
theorem foldlM_rows (hs : table.serializers = .ok ss)
    (hshort : ∀ record ∈ records, Short table record)
    (h : (records.foldlM (copyRecord table.name table.columnTypes table.primaryKeyIndices ss) n)
      store = (.ok m, store')) :
    ∃ rows, Forall₂ (Copies table) records rows ∧ (rows.map Prod.fst).Nodup ∧
      (∀ row ∈ rows, store.space table.name none row.1 = none) ∧
      (∀ k bytes, store'.space table.name none k = some bytes ↔
        store.space table.name none k = some bytes ∨ (k, bytes) ∈ rows) ∧
      ∀ part, part ≠ none → store'.space table.name part = store.space table.name part := by
  obtain ⟨rows, hall, hnodup, habsent, hiff⟩ :=
    foldlM_inserts (V := fun s : Store => s.space table.name none)
      (W := Copies table) h fun record hmem n s m t hstep => by
        obtain ⟨k, bytes, hcopy, hfree, hrows, -⟩ := copyRecord_spec hs (hshort record hmem) hstep
        exact ⟨k, bytes, hcopy, hfree, hrows⟩
  refine ⟨rows, hall, hnodup, habsent, hiff, fun part hp => ?_⟩
  refine (foldlM_rest (I := fun rest s => (∀ record ∈ rest, Short table record) ∧
    s.space table.name part = store.space table.name part) h ?_ ⟨hshort, rfl⟩).2
  rintro record rest n s m t ⟨hsh, hsame⟩ hstep
  rw [forall_mem_cons] at hsh
  obtain ⟨k, bytes, -, -, -, hframe⟩ := copyRecord_spec hs hsh.1 hstep
  exact ⟨hsh.2, (hframe part hp).trans hsame⟩

theorem nextTuple_eq_ok
    (h : nextTuple table.columns (some table) source store = (.ok result, store')) :
    ∃ ss records n, table.serializers = .ok ss ∧ source = .ok records ∧
      (records.foldlM (copyRecord table.name table.columnTypes table.primaryKeyIndices ss) 0)
        store = (.ok n, store') := by
  obtain ⟨ss, hs, h⟩ := liftM_bind_eq_ok.mp h
  obtain ⟨n, hcopy, -⟩ := bind_pure_eq_ok.mp h
  obtain ⟨records, hsource, hcopy⟩ := liftM_bind_eq_ok.mp hcopy
  exact ⟨ss, records, n, hs, hsource, hcopy⟩

theorem rowsAdmitted_iff (hs : table.serializers = .ok ss) (hadm : table.RowsAdmitted store)
    (hall : Forall₂ (Copies table) records rows)
    (hrows : ∀ k bytes, store'.space table.name none k = some bytes ↔
      store.space table.name none k = some bytes ∨ (k, bytes) ∈ rows) :
    table.RowsAdmitted store' ↔ ∀ fields, .ok fields ∈ records →
      ∀ p ∈ fields.zip table.columnTypes, DecimalFits p.1 p.2 := by
  constructor
  · intro hadm' fields hmem
    obtain ⟨⟨k, bytes⟩, hrow, fields', values, hf, hv, -, hst⟩ :=
      exists_of_mem_forall₂ hall.flip hmem
    cases hf
    obtain ⟨vs, hvs, hadmits⟩ := hadm' k bytes ((hrows k bytes).mpr (Or.inr hrow))
    rw [hst.read] at hvs
    cases hvs
    exact (admits_fields_iff hv (by simpa [columnTypes] using hst.fits.length_eq) hs).mp hadmits
  · intro hfits k bytes hrow
    rcases (hrows k bytes).mp hrow with hold | hnew
    · exact hadm k bytes hold
    · obtain ⟨_, hmem, fields, values, rfl, hv, -, hst⟩ := exists_of_mem_forall₂ hall hnew
      exact ⟨_, hst.read, (admits_fields_iff hv
        (by simpa [columnTypes] using hst.fits.length_eq) hs).mpr (hfits fields hmem)⟩

/-- After COPY FROM the table has its old rows and one for each record. They respect the columns
and the indexes are exact when, and only when, no DECIMAL field has too many digits and there is
nothing to index. -/
theorem nextTuple_iff (hshort : ∀ records, source = .ok records → ∀ record ∈ records,
      Short table record) (hadm : table.RowsAdmitted store) (hexact : table.IndexesExact store)
    (h : nextTuple table.columns (some table) source store = (.ok result, store')) :
    ∃ records rows, source = .ok records ∧ List.Forall₂ (Copies table) records rows ∧
      (rows.map Prod.fst).Nodup ∧ (∀ row ∈ rows, store.space table.name none row.1 = none) ∧
      (∀ k bytes, store'.space table.name none k = some bytes ↔
        store.space table.name none k = some bytes ∨ (k, bytes) ∈ rows) ∧
      (table.RowsAdmitted store' ∧ table.IndexesExact store' ↔
        (∀ fields, .ok fields ∈ records → ∀ p ∈ fields.zip table.columnTypes,
          DecimalFits p.1 p.2) ∧
        (records = [] ∨ ∀ index ∈ table.indexes, index.isPrimary = true)) := by
  obtain ⟨ss, records, n, hs, hsource, hloop⟩ := nextTuple_eq_ok h
  obtain ⟨rows, hall, hnodup, habsent, hrows, hframe⟩ :=
    foldlM_rows hs (hshort records hsource) hloop
  refine ⟨records, rows, hsource, hall, hnodup, habsent, hrows, ?_⟩
  have hnil : records = [] ↔ rows = [] := by
    rw [← List.length_eq_zero_iff, ← List.length_eq_zero_iff, hall.length_eq]
  rw [rowsAdmitted_iff hs hadm hall hrows, indexesExact_iff hexact habsent hrows hframe, hnil]

end Rows

end CopyFromFile

/-- A table of integers with a primary key and, if wanted, an index over its second column. -/
def integerPairs (indexed : Bool) : TableCatalog where
  name := "t"
  columns := [⟨⟨"a", .table 1 "t" false⟩, false, ⟨.integer, some 0, false, none⟩⟩,
    ⟨⟨"b", .table 2 "t" false⟩, true, ⟨.integer, none, false, none⟩⟩]
  indexes := ⟨0, [1], .integer, .integer, "pk_index", .primaryKey false⟩ ::
    if indexed then [⟨1, [2], .integer, .integer, "i", .unique⟩] else []

namespace CopyFromFile

/-- A file with one record. -/
def oneRecord : Result (List (Result (List String))) := .ok [.ok ["1", "2"]]

theorem short_oneRecord (indexed : Bool) :
    ∀ records, oneRecord = .ok records → ∀ record ∈ records,
      @Short .refusing (integerPairs indexed) record := by
  rintro records ⟨⟩ record hmem fields values hfields hvalues
  rw [mem_singleton.mp hmem] at hfields
  cases hfields
  cases hvalues
  simp [writtenLen]

theorem copied_without_index :
    ∃ result store', @nextTuple .refusing .flagsFirst (integerPairs false).columns
        (some (integerPairs false)) oneRecord ∅ = (.ok result, store') ∧
      @TableCatalog.RowsAdmitted .flagsFirst (integerPairs false) store' ∧
      @TableCatalog.IndexesExact .flagsFirst (integerPairs false) store' := by
  let _ := DecimalLayout.flagsFirst
  let _ := Conversions.refusing
  have hrun : nextTuple (integerPairs false).columns (some (integerPairs false)) oneRecord ∅ =
      (.ok (buildResult "1"), (nextTuple (integerPairs false).columns
        (some (integerPairs false)) oneRecord ∅).2) := rfl
  refine ⟨_, _, hrun, ?_⟩
  obtain ⟨records, rows, hsource, -, -, -, -, hiff⟩ := nextTuple_iff (short_oneRecord false)
    (rowsAdmitted_empty (integerPairs false)) (sound_empty (integerPairs false)).exact hrun
  cases hsource
  refine hiff.mpr ⟨fun fields hmem p hp precision scale d hty => ?_, Or.inr fun index hi => ?_⟩
  · cases List.mem_singleton.mp hmem
    simp only [TableCatalog.columnTypes, integerPairs, List.map_cons, List.map_nil,
      ColumnCatalog.datatype, List.zip_cons_cons, List.zip_nil_right, List.mem_cons,
      List.not_mem_nil, or_false] at hp
    rcases hp with rfl | rfl <;> cases hty
  · cases List.mem_singleton.mp hi
    rfl

/-- A copied row is missing from the index. -/
theorem copied_with_index :
    ∃ result store', @TableCatalog.RowsAdmitted .flagsFirst (integerPairs true) ∅ ∧
      @TableCatalog.IndexesExact .flagsFirst (integerPairs true) ∅ ∧
      @nextTuple .refusing .flagsFirst (integerPairs true).columns
        (some (integerPairs true)) oneRecord ∅ = (.ok result, store') ∧
      ¬ @TableCatalog.IndexesExact .flagsFirst (integerPairs true) store' := by
  let _ := DecimalLayout.flagsFirst
  let _ := Conversions.refusing
  have hrun : nextTuple (integerPairs true).columns (some (integerPairs true)) oneRecord ∅ =
      (.ok (buildResult "1"), (nextTuple (integerPairs true).columns
        (some (integerPairs true)) oneRecord ∅).2) := rfl
  have hexact := (sound_empty (integerPairs true)).exact
  refine ⟨_, _, rowsAdmitted_empty _, hexact, hrun, ?_⟩
  obtain ⟨ss, records, n, hs, hsource, hloop⟩ := nextTuple_eq_ok hrun
  obtain ⟨rows, hall, -, habsent, hrows, hframe⟩ :=
    foldlM_rows hs (short_oneRecord true records hsource) hloop
  rw [indexesExact_iff hexact habsent hrows hframe]
  cases hsource
  rintro (rfl | hprimary)
  · cases hall
  · exact absurd (hprimary _ (List.mem_cons_of_mem _ (List.mem_singleton_self _))) (by decide)

end CopyFromFile

end KiteSQL
