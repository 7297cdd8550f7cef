import KiteSQL.Execution.DmlExact

/-! INSERT OVERWRITE puts rows over stored ones without looking at the entries these have. -/
namespace KiteSQL

open TableCodec Function IndexedRows TableCatalog Traverse List DataValue

section Overwrite

variable [DecimalLayout] {table : TableCatalog} {index : IndexMeta} {store store' : Store}
  {templates : List (IndexMeta × List Nat)} {item : Result Tuple} {input : List (Result Tuple)}
  {n m : Nat} {ss : List TupleValueSerializableImpl} {k e v : Bytes}
  {entries : Bytes → Option Bytes}

namespace TableCatalog

/-- A version of a row, and of its entry in an index, is made from these values. -/
structure Describes (table : TableCatalog) (index : IndexMeta) (values : List DataValue)
    (x : Version Bytes Bytes Bytes Bytes) : Prop where
  key : table.keyOf values = .ok x.key
  stores : table.Stores values x.row
  entry : ∃ ws a, index.rowValues table values = .ok ws ∧
    DataValue.memcomparableEncodeAll ws = .ok a ∧ x.entry = index.entry table a x.key

variable {values values' : List DataValue} {x y : Version Bytes Bytes Bytes Bytes}

theorem Describes.entry_eq (h : table.Describes index values x) :
    ∃ a, table.indexKeyOf index values = .ok a ∧ x.entry = index.entry table a x.key := by
  obtain ⟨ws, a, hw, ha, he⟩ := h.entry
  exact ⟨a, indexKeyOf_eq_ok.mpr ⟨ws, hw, ha⟩, he⟩

/-- The row has the entry unless an index column cuts spaces off. -/
theorem Describes.entry_iff (h : table.Describes index values x) :
    (table.scheme index).entry x.key x.row = some x.entry ↔ ∀ ws types,
      index.rowValues table values = .ok ws → index.rowTypes table = .ok types →
      Forall₂ keepsText ws types := by
  obtain ⟨ws, a, hw, ha, he⟩ := h.entry
  obtain ⟨types, ht, -, hiff⟩ := h.stores.entry hw ha x.key
  rw [he, hiff, hw, ht]
  constructor
  · rintro hk _ _ ⟨⟩ ⟨⟩
    exact hk
  · intro hk
    exact hk ws types rfl rfl

/-- Versions of one key have one entry when their index values are encoded alike. -/
theorem Describes.entry_eq_iff (hx : table.Describes index values x)
    (hy : table.Describes index values' y) (hk : y.key = x.key) :
    y.entry = x.entry ↔ table.indexKeyOf index values' = table.indexKeyOf index values := by
  obtain ⟨a, ha, hxe⟩ := hx.entry_eq
  obtain ⟨b, hb, hye⟩ := hy.entry_eq
  rw [hxe, hye, hk, entry_inj, ha, hb, Except.ok.injEq]

/-- Versions with one key and one entry cut spaces off alike. -/
theorem Describes.entry_congr (hx : table.Describes index values x)
    (hy : table.Describes index values' y) (hk : x.key = y.key) (he : x.entry = y.entry)
    (hentry : (table.scheme index).entry y.key y.row = some y.entry) :
    (table.scheme index).entry x.key x.row = some x.entry := by
  rw [hy.entry_iff] at hentry
  rw [hx.entry_iff]
  intro ws types hw ht
  obtain ⟨ws', -, hw', -, -⟩ := hy.entry
  obtain ⟨types₁, ht₁, hfits, -⟩ := rowValues_typed hx.stores.fits hw
  obtain ⟨types₂, ht₂, hfits', -⟩ := rowValues_typed hy.stores.fits hw'
  rw [ht] at ht₁ ht₂
  cases ht₁
  cases ht₂
  have hsame := (hx.entry_eq_iff hy hk.symm).mp he.symm
  refine forall₂_keepsText_congr hfits' hfits ?_ (hentry ws' types hw' ht)
  rwa [indexKeyOf, indexKeyOf, hw, hw'] at hsame

/-- A stored row has the entry of a version when their index values are encoded alike. -/
theorem Describes.replaced_iff {r : Bytes} {old : List DataValue}
    (h : table.Describes index values x) (hread : table.readRow r = .ok old) :
    (table.scheme index).entry x.key r = some x.entry ↔
      table.indexKeyOf index old = table.indexKeyOf index values := by
  obtain ⟨a, ha, he⟩ := h.entry_eq
  rw [he, ha, scheme_entry_iff, hread]
  simp

theorem Owned.update (h : table.Owned index entries) (ho : table.Owns index k e)
    (hn : (table.scheme index).names v = some k) :
    table.Owned index (Function.update entries e (some v)) := by
  intro x b hx
  rcases IndexedRows.update_eq_some_iff.mp hx with ⟨rfl, ⟨⟩⟩ | ⟨hxe, hx⟩
  · exact ⟨k, hn, ho⟩
  · exact h x b hx

end TableCatalog

namespace Insert

variable [Conversions] {op : Insert}

/-- A row that the statement builds from its input. -/
def Builds (op : Insert) (table : TableCatalog) (input : List (Result Tuple))
    (values : List DataValue) : Prop :=
  ∃ tuple, .ok tuple ∈ input ∧ op.buildRow table.columns tuple.values = .ok values

/-- No new row loses trailing spaces in an index column, and all rows with its primary key, new or
stored, have its index values. -/
structure KeepsEntries (op : Insert) (table : TableCatalog) (store : Store)
    (input : List (Result Tuple)) (index : IndexMeta) : Prop where
  texts : ∀ values, op.Builds table input values → ∀ ws types,
    index.rowValues table values = .ok ws → index.rowTypes table = .ok types →
    List.Forall₂ DataValue.keepsText ws types
  versions : ∀ values values', op.Builds table input values → op.Builds table input values' →
    table.keyOf values' = table.keyOf values →
    table.indexKeyOf index values' = table.indexKeyOf index values
  replaced : ∀ values k r old, op.Builds table input values → table.keyOf values = .ok k →
    store.space table.name none k = some r → table.readRow r = .ok old →
    table.indexKeyOf index old = table.indexKeyOf index values

/-- The version that an input item becomes. -/
def Writes (op : Insert) (table : TableCatalog) (index : IndexMeta) (item : Result Tuple)
    (x : Version Bytes Bytes Bytes Bytes) : Prop :=
  ∃ tuple values, item = .ok tuple ∧ op.buildRow table.columns tuple.values = .ok values ∧
    table.Describes index values x

/-- The loop of an INSERT writes one version after the other. -/
theorem foldlM_upserts (hw : table.WellFormed) (ht : table.indexTemplates = .ok templates)
    (hs : table.serializers = .ok ss) (hi : index ∈ table.indexes)
    (hp : index.isPrimary = false) (hshort : ∀ item ∈ input, op.Short table item)
    (hown : table.Owned index (store.space table.name (some index.id)))
    (h : (input.foldlM (op.insertRow table.name
      ⟨table.columns, table.primaryKeyIndices, templates⟩ ss) n) store = (.ok m, store')) :
    ∃ xs, Upserts (table.scheme index) xs (store.space table.name none)
        (store.space table.name (some index.id)) (store'.space table.name none)
        (store'.space table.name (some index.id)) ∧
      Forall₂ (op.Writes table index) input xs := by
  induction input generalizing n store with
  | nil =>
    obtain ⟨-, rfl⟩ := Stateful.pure_eq_ok.mp h
    exact ⟨[], .nil _ _, .nil⟩
  | cons item input ih =>
    obtain ⟨d, t, hrow, hrest⟩ := Stateful.foldlM_cons_eq_ok h
    rw [forall_mem_cons] at hshort
    obtain ⟨tuple, values, id, k, bytes, rfl, hvalues, hid, hk, hst, hins⟩ :=
      insertRow_spec hw ht hs hshort.1 hrow
    obtain ⟨ws, a, v, hws, ha, hn, hent, hu⟩ := hins.indexes index hi hp
    obtain ⟨types, -, howns, -⟩ := hst.entry hws ha k
    have hnext := hown.update howns hn
    rw [← hent] at hnext
    obtain ⟨xs, hups, hxs⟩ := ih hshort.2 hnext hrest
    refine ⟨⟨k, bytes, index.entry table a k, v⟩ :: xs, .cons hn ?_ ?_, .cons ?_ hxs⟩
    · exact hown.free hp howns hn hu
    · rwa [hins.rows, hent] at hups
    · refine ⟨tuple, values, rfl, hvalues, ?_, hst, ws, a, hws, ha, rfl⟩
      rw [TableCatalog.keyOf, hid]
      exact hk

/-- The versions of a statement agree when, and only when, it keeps the entries of the index. -/
theorem agrees_iff {xs : List (Version Bytes Bytes Bytes Bytes)}
    (hxs : Forall₂ (op.Writes table index) input xs)
    (he : Exact (table.scheme index) (store.space table.name none)
      (store.space table.name (some index.id))) :
    (∀ x ∈ xs, Agrees (table.scheme index) (store.space table.name none) xs x) ↔
      op.KeepsEntries table store input index := by
  have hright : ∀ x ∈ xs, ∃ values, op.Builds table input values ∧
      table.Describes index values x := by
    intro x hx
    obtain ⟨_, hmem, tuple, values, rfl, hv, hd⟩ := exists_of_mem_forall₂ hxs hx
    exact ⟨values, ⟨tuple, hmem, hv⟩, hd⟩
  have hleft : ∀ values, op.Builds table input values → ∃ x ∈ xs,
      table.Describes index values x := by
    rintro values ⟨tuple, hmem, hv⟩
    obtain ⟨x, hx, tuple', values', htuple, hv', hd⟩ := exists_of_mem_forall₂ hxs.flip hmem
    cases htuple
    rw [hv] at hv'
    cases hv'
    exact ⟨x, hx, hd⟩
  constructor
  · refine fun hall => ⟨fun values hb => ?_, fun values values' hb hb' hk => ?_,
      fun values k r old hb hk hr hread => ?_⟩
    · obtain ⟨x, hx, hd⟩ := hleft values hb
      exact hd.entry_iff.mp (hall x hx).entry
    · obtain ⟨x, hx, hd⟩ := hleft values hb
      obtain ⟨y, hy, hd'⟩ := hleft values' hb'
      rw [hd.key, hd'.key, Except.ok.injEq] at hk
      exact (hd.entry_eq_iff hd' hk).mp ((hall x hx).versions y hy hk)
    · obtain ⟨x, hx, hd⟩ := hleft values hb
      rw [hd.key] at hk
      cases hk
      exact (hd.replaced_iff hread).mp ((hall x hx).replaced r hr)
  · intro hkeeps x hx
    obtain ⟨values, hb, hd⟩ := hright x hx
    refine ⟨hd.entry_iff.mpr (hkeeps.texts values hb), fun y hy hk => ?_, fun r hr => ?_⟩
    · obtain ⟨values', hb', hd'⟩ := hright y hy
      exact (hd.entry_eq_iff hd' hk).mpr
        (hkeeps.versions values values' hb hb' (by rw [hd.key, hd'.key, hk]))
    · obtain ⟨e, v, hre, -, -⟩ := he.listed _ r hr
      obtain ⟨old, -, -, hread, -⟩ := entryKey_eq_ok.mp (toOption_eq_some.mp hre)
      exact (hd.replaced_iff hread).mpr (hkeeps.replaced values _ r old hb hd.key hr hread)

/-- An INSERT keeps an index exact when, and only when, it keeps the entries of all rows that it
puts others over. -/
theorem insertTable_exact_iff (hw : table.WellFormed) (hshort : ∀ item ∈ input, op.Short table item)
    (hexact : table.IndexesExact store) (h : op.insertTable table input store = (.ok n, store')) :
    table.IndexesExact store' ↔ ∀ index ∈ table.indexes, index.isPrimary = false →
      op.KeepsEntries table store input index := by
  obtain ⟨templates, ss, ht, hs, hloop⟩ := insertTable_eq_ok h
  refine forall₃_congr fun index hi hp => ?_
  have he := hexact index hi hp
  obtain ⟨xs, hups, hxs⟩ := foldlM_upserts hw ht hs hi hp hshort (owned_of_exact he) hloop
  rw [hups.exact_iff he, agrees_iff hxs he]
  intro x hx y hy hk heq hentry
  obtain ⟨item, -, tuple, values, -, -, hdx⟩ := exists_of_mem_forall₂ hxs hx
  obtain ⟨item', -, tuple', values', -, -, hdy⟩ := exists_of_mem_forall₂ hxs hy
  exact hdx.entry_congr hdy hk heq hentry

/-- After an INSERT, with OVERWRITE or without, the indexes are exact again when, and only when,
every new row has the index values of all rows with its primary key. -/
theorem nextTuple_exact_iff {result : Tuple} (hw : table.WellFormed)
    (hshort : ∀ item ∈ input, op.Short table item) (hexact : table.IndexesExact store)
    (h : op.nextTuple (some table) input store = (.ok result, store')) :
    table.IndexesExact store' ↔ ∀ index ∈ table.indexes, index.isPrimary = false →
      op.KeepsEntries table store input index := by
  obtain ⟨n, hrun, -⟩ := Stateful.bind_pure_eq_ok.mp h
  exact insertTable_exact_iff hw hshort hexact hrun

end Insert

end Overwrite

open Dml

/-- `INSERT OVERWRITE` by position into a table. -/
def overwrite (table : TableCatalog) : Insert := ⟨table.columns, true, false⟩

/-- The input of an INSERT into `floatIndexed`. -/
def floatRow (u : UInt64) : List (Result Tuple) := [.ok ⟨none, [.int32 1, .float64 u]⟩]

theorem short_floatRow (u : UInt64) (item : Result Tuple) (hmem : item ∈ floatRow u) :
    @Insert.Short .refusing (overwrite floatIndexed) floatIndexed item := by
  intro tuple values hitem hvalues
  rw [mem_singleton.mp hmem] at hitem
  cases hitem
  cases hvalues
  simp [writtenLen]

theorem builds_floatRow {u : UInt64} {values : List DataValue}
    (h : @Insert.Builds .refusing (overwrite floatIndexed) floatIndexed (floatRow u) values) :
    values = [.int32 1, .float64 u] := by
  obtain ⟨tuple, hmem, hv⟩ := h
  cases mem_singleton.mp hmem
  cases hv
  rfl

theorem exact_withFloat_zero :
    @TableCatalog.IndexesExact .flagsFirst floatIndexed (withFloat 0) := by
  let _ := DecimalLayout.flagsFirst
  exact (sound_withFloat rfl).exact

theorem overwrite_same_value :
    ∃ result store', @Insert.nextTuple .refusing .flagsFirst (overwrite floatIndexed)
        (some floatIndexed) (floatRow 0) (withFloat 0) = (.ok result, store') ∧
      @TableCatalog.IndexesExact .flagsFirst floatIndexed store' := by
  let _ := DecimalLayout.flagsFirst
  let _ := Conversions.refusing
  have hrun : (overwrite floatIndexed).nextTuple (some floatIndexed) (floatRow 0) (withFloat 0) =
      (.ok (buildResult "1"), ((overwrite floatIndexed).nextTuple (some floatIndexed)
        (floatRow 0) (withFloat 0)).2) := rfl
  refine ⟨_, _, hrun, ?_⟩
  refine (Insert.nextTuple_exact_iff floatIndexed_wellFormed (short_floatRow 0)
    exact_withFloat_zero hrun).mpr fun index hi hp => ⟨?_, ?_, ?_⟩
  · intro values hb ws types hw ht
    rw [builds_floatRow hb] at hw
    rcases List.mem_cons.mp hi with rfl | hi
    · cases hp
    · cases List.mem_singleton.mp hi
      cases hw
      cases ht
      exact .cons trivial .nil
  · intro values values' hb hb' hk
    rw [builds_floatRow hb, builds_floatRow hb']
  · intro values k r old hb hk hr hread
    rw [builds_floatRow hb] at hk ⊢
    cases hk
    cases hr
    cases hread
    rfl

/-- Putting a row with another indexed value over a stored one leaves the old entry behind. -/
theorem overwrite_other_value :
    ∃ result store', @TableCatalog.IndexesExact .flagsFirst floatIndexed (withFloat 0) ∧
      @Insert.nextTuple .refusing .flagsFirst (overwrite floatIndexed)
        (some floatIndexed) (floatRow 1) (withFloat 0) = (.ok result, store') ∧
      ¬ @TableCatalog.IndexesExact .flagsFirst floatIndexed store' := by
  let _ := DecimalLayout.flagsFirst
  let _ := Conversions.refusing
  have hrun : (overwrite floatIndexed).insertTable floatIndexed (floatRow 1) (withFloat 0) =
      (.ok 1, ((overwrite floatIndexed).insertTable floatIndexed (floatRow 1) (withFloat 0)).2) :=
    rfl
  refine ⟨buildResult "1", _, exact_withFloat_zero, rfl, ?_⟩
  intro hexact
  have hkeeps := (Insert.insertTable_exact_iff floatIndexed_wellFormed (short_floatRow 1)
    exact_withFloat_zero hrun).mp hexact _ (List.mem_cons_of_mem _ (List.mem_singleton_self _)) rfl
  have hsame := hkeeps.replaced _ _ _ _ ⟨_, List.mem_singleton_self _, rfl⟩ rfl rfl rfl
  exact absurd (Except.ok.inj hsame) (by decide)

end KiteSQL
