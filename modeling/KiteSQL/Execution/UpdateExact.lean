import KiteSQL.Execution.InsertExact

/-! DELETE and UPDATE statements over rows that their input plan delivers. -/
namespace KiteSQL

open TableCodec Function IndexedRows TableCatalog Stateful List Option Tuple

/-- The key of the row that an input item names. -/
def itemKey (tableName : String) : Result Tuple → Option Bytes
  | .ok tuple => tuple.pk.bind fun id => (rowKey tableName id).toOption
  | .error _ => none

theorem itemKey_eq {tableName : String} {tuple : Tuple} {id : DataValue} {k : Bytes}
    (hpk : tuple.pk = some id) (hk : rowKey tableName id = .ok k) :
    itemKey tableName (.ok tuple) = some k := by
  rw [itemKey, hpk, bind_some, hk]
  rfl

theorem itemKey_eq_some {tableName : String} {item : Result Tuple} {k : Bytes}
    (h : itemKey tableName item = some k) :
    ∃ tuple id, item = .ok tuple ∧ tuple.pk = some id ∧ rowKey tableName id = .ok k := by
  cases item with
  | error e => cases h
  | ok tuple =>
    obtain ⟨id, hid, hk⟩ := bind_eq_some_iff.mp h
    exact ⟨tuple, id, rfl, hid, toOption_eq_some.mp hk⟩

namespace Update

variable {op : Update} {table : TableCatalog} {exprs : List (ColumnId × ScalarExpression)}
  {templates : List (IndexMeta × List Nat)} {ss : List TupleValueSerializableImpl}
  {values oldValues : List DataValue}

/-- What is fixed while an UPDATE runs over the rows of its table. -/
structure Ready (op : Update) (table : TableCatalog) (exprs : List (ColumnId × ScalarExpression))
    (templates : List (IndexMeta × List Nat)) (ss : List TupleValueSerializableImpl) : Prop where
  wellFormed : table.WellFormed
  schema : op.inputSchema = table.columns
  assigned : ∀ assignment ∈ op.valueExprs, assignment.1 ∈ table.columns
  exprsMap : op.exprsMap = .ok exprs
  templates : table.indexTemplates = .ok templates
  serializers : table.serializers = .ok ss

theorem ready (hw : table.WellFormed) (hschema : op.inputSchema = table.columns)
    (hassigned : ∀ assignment ∈ op.valueExprs, assignment.1 ∈ table.columns)
    (hex : op.exprsMap = .ok exprs) (ht : table.indexTemplates = .ok templates)
    (hss : op.serializers = .ok ss) : Ready op table exprs templates ss := by
  refine ⟨hw, hschema, hassigned, hex, ht, ?_⟩
  rw [TableCatalog.serializers, TableCatalog.columnTypes, List.mapM_map, ← hschema]
  exact hss

/-- No text of the updated row is longer than a length field can say. -/
def Short (op : Update) (exprs : List (ColumnId × ScalarExpression)) (item : Result Tuple) :
    Prop :=
  ∀ tuple values, item = .ok tuple → assign exprs 0 op.inputSchema tuple.values = .ok values →
    ∀ v ∈ values, v.writtenLen < 2 ^ 32

/-- The item is a row of the table's types with an encodable key. -/
def Typed (table : TableCatalog) (item : Result Tuple) : Prop :=
  ∀ tuple id, item = .ok tuple → tuple.pk = some id →
    (∃ k, rowKey table.name id = .ok k) ∧
      List.Forall₂ DataValue.HasType tuple.values table.columnTypes

/-- The updated row loses no trailing spaces in its primary key, and a NaN in an index column is
not replaced by a NaN of other bits next to equal values. -/
def Harmless (op : Update) (table : TableCatalog) (exprs : List (ColumnId × ScalarExpression))
    (item : Result Tuple) : Prop :=
  ∀ tuple oldPk values newPk, item = .ok tuple → tuple.pk = some oldPk →
    assign exprs 0 op.inputSchema tuple.values = .ok values →
    Tuple.primaryProjection table.primaryKeyIndices values = .ok newPk →
    table.KeepsKey values ∧
      (newPk.eq oldPk = true → ∀ index ∈ table.indexes, index.isPrimary = false → ∀ ws ws',
        index.rowValues table tuple.values = .ok ws → index.rowValues table values = .ok ws' →
        DataValue.eqList ws ws' = true → DataValue.keepsNanAll ws ws' = true)

theorem Ready.declaresChar (hr : Ready op table exprs templates ss)
    (hv : Forall₂ DataValue.HasType oldValues table.columnTypes)
    (h : assign exprs 0 op.inputSchema oldValues = .ok values) :
    Forall₂ DataValue.declaresChar values table.columnTypes := by
  rw [hr.schema] at h
  rw [forall₂_columnTypes] at hv ⊢
  refine forall₂_assign (P := fun v column => v.declaresChar column.datatype) h rfl
    (hv.imp fun _ _ hv => hv.declaresChar) fun c hc e row v he _ hev => ?_
  rw [← returnType_of_exprOf hr.wellFormed hr.exprsMap hr.assigned hc he]
  exact e.declares row v hev

end Update

variable [DecimalLayout] {table : TableCatalog} {store store' : Store}
  {templates : List (IndexMeta × List Nat)} {item : Result Tuple} {input : List (Result Tuple)}
  {n m : Nat} {ss : List TupleValueSerializableImpl} {tuple : Tuple} {id : DataValue}

/-- The input plan delivers rows of the table as they are in the store, each at most once. -/
structure Delivered (table : TableCatalog) (store : Store) (input : List (Result Tuple)) :
    Prop where
  rows : ∀ tuple id, .ok tuple ∈ input → tuple.pk = some id → ∃ k r,
    rowKey table.name id = .ok k ∧ store.space table.name none k = some r ∧
      table.readRow r = .ok tuple.values
  once : (input.filterMap (itemKey table.name)).Nodup

namespace Delivered

theorem tail (h : Delivered table store (item :: input)) : Delivered table store input := by
  refine ⟨fun tuple id hmem => h.rows tuple id (by simp [hmem]), ?_⟩
  have honce := h.once
  rw [filterMap_cons] at honce
  split at honce
  · exact honce
  · exact honce.of_cons

/-- The rows still to come are not the one at hand. -/
theorem itemKey_ne {k : Bytes} {other : Result Tuple} (h : Delivered table store (item :: input))
    (hk : itemKey table.name item = some k) (hmem : other ∈ input) :
    itemKey table.name other ≠ some k := by
  intro hother
  have honce := h.once
  rw [filterMap_cons, hk] at honce
  exact (nodup_cons.mp honce).1 (mem_filterMap.mpr ⟨other, hmem, hother⟩)

/-- Rows whose keys were not written are delivered from the new store as well. -/
theorem of_rows (h : Delivered table store input)
    (hsame : ∀ k, (∃ item ∈ input, itemKey table.name item = some k) →
      ∀ r, store.space table.name none k = some r → store'.space table.name none k = some r) :
    Delivered table store' input := by
  refine ⟨fun tuple id hmem hpk => ?_, h.once⟩
  obtain ⟨k, r, hk, hr, hread⟩ := h.rows tuple id hmem hpk
  exact ⟨k, r, hk, hsame k ⟨.ok tuple, hmem, itemKey_eq hpk hk⟩ r hr, hread⟩

end Delivered

namespace Delete

/-- A DELETE keeps the table sound. -/
theorem deleteTable_sound (hw : table.WellFormed) (hd : Delivered table store input)
    (hs : table.Sound store) (h : deleteTable table input store = (.ok n, store')) :
    table.Sound store' := by
  obtain ⟨templates, ht, h⟩ := liftM_bind_eq_ok.mp h
  refine (foldlM_rest (I := fun rest s => table.Sound s ∧ Delivered table s rest) h ?_
    ⟨hs, hd⟩).1
  rintro item rest n s m t ⟨hsound, hdel⟩ hstep
  cases item with
  | error e =>
    obtain ⟨_, _, hl, -⟩ := bind_eq_ok.mp hstep
    cases (liftM_eq.mp hl).1
  | ok tuple =>
    cases hpk : tuple.pk with
    | none =>
      obtain ⟨_, he, hstep⟩ := liftM_bind_eq_ok.mp hstep
      cases he
      rw [hpk] at hstep
      obtain ⟨-, rfl⟩ := pure_eq_ok.mp hstep
      exact ⟨hsound, hdel.tail⟩
    | some id =>
      obtain ⟨k, r, hk, hr, hread⟩ := hdel.rows tuple id (by simp) hpk
      have hrow := deleteRow_spec hw ht hpk hk hstep
      refine ⟨hrow.sound hsound hr hread, hdel.tail.of_rows fun x hx b hb => ?_⟩
      obtain ⟨other, hmem, hother⟩ := hx
      rw [hrow.rows, update_of_ne, hb]
      rintro rfl
      exact hdel.itemKey_ne (itemKey_eq hpk hk) hmem hother

end Delete

namespace Update

variable {op : Update} {exprs : List (ColumnId × ScalarExpression)} {index : IndexMeta}
  {values oldValues : List DataValue} {oldPk newPk : DataValue} {k k' bytes r : Bytes}

theorem updateRow_cases {snapshot : DmlTableSnapshot}
    (h : op.updateRow table.name snapshot ss exprs n item store = (.ok m, store')) :
    ∃ tuple, item = .ok tuple ∧ (tuple.pk = none ∧ store' = store ∨
      ∃ oldPk, tuple.pk = some oldPk ∧
        op.rewriteRow table.name snapshot ss exprs oldPk tuple.values store =
          (.ok ⟨⟩, store')) := by
  obtain ⟨tuple, hitem, h⟩ := liftM_bind_eq_ok.mp h
  refine ⟨tuple, hitem, ?_⟩
  cases hpk : tuple.pk with
  | none =>
    rw [hpk] at h
    exact Or.inl ⟨rfl, (pure_eq_ok.mp h).2.symm⟩
  | some oldPk =>
    rw [hpk] at h
    obtain ⟨_, hrow, -⟩ := bind_pure_eq_ok.mp h
    exact Or.inr ⟨oldPk, rfl, hrow⟩

/-- What an UPDATE does with a row that has a primary key. -/
theorem Ready.rewriteRow (hr : Ready op table exprs templates ss)
    (hshort : op.Short exprs (.ok tuple)) (htyped : Typed table (.ok tuple))
    (hpk : tuple.pk = some oldPk) (hk : rowKey table.name oldPk = .ok k)
    (h : op.rewriteRow table.name ⟨table.columns, table.primaryKeyIndices, templates⟩ ss exprs
      oldPk tuple.values store = (.ok ⟨⟩, store')) :
    ∃ values newPk k' bytes, assign exprs 0 op.inputSchema tuple.values = .ok values ∧
      primaryProjection table.primaryKeyIndices values = .ok newPk ∧
      rowKey table.name newPk = .ok k' ∧ table.Stores values bytes ∧
      RowUpdate table exprs oldPk newPk tuple.values values k k' bytes store store' := by
  obtain ⟨values, newPk, k', bytes, hv, hnew, -, hk', hb, hrow⟩ :=
    rewriteRow_spec hr.wellFormed hr.templates hk h
  refine ⟨values, newPk, k', bytes, hv, hnew, hk', ?_, hrow⟩
  exact stores_of_serializeTo hr.serializers
    (hr.declaresChar (htyped tuple oldPk rfl hpk).2 hv) (hshort tuple values rfl hv) hb

/-- A row whose key columns are not assigned keeps its key. -/
theorem key_eq_of_unassigned (hkeyed : table.Keyed k r) (hread : table.readRow r = .ok oldValues)
    (hv : assign exprs 0 table.columns oldValues = .ok values)
    (hpk : updatesPrimaryKey ⟨table.columns, table.primaryKeyIndices, []⟩ exprs = false)
    (hnew : primaryProjection table.primaryKeyIndices values = .ok newPk)
    (hk' : rowKey table.name newPk = .ok k') : k' = k := by
  obtain ⟨vs, id, hvs, hid, hk⟩ := hkeyed
  rw [hread] at hvs
  cases hvs
  rw [primaryProjection_assign hv hpk, hid] at hnew
  cases hnew
  rw [hk] at hk'
  exact (Except.ok.inj hk').symm

/-- The index values of a stored row. -/
theorem rowValues_of_exact {rows entries : Bytes → Option Bytes}
    (he : Exact (table.scheme index) rows entries) (hrow : rows k = some r)
    (hread : table.readRow r = .ok oldValues) :
    ∃ ws a v, index.rowValues table oldValues = .ok ws ∧
      DataValue.memcomparableEncodeAll ws = .ok a ∧ entries (index.entry table a k) = some v ∧
      (table.scheme index).names v = some k := by
  obtain ⟨e, v, hre, hv, hn⟩ := he.listed k r hrow
  obtain ⟨vs, ws, a, hvs, hw, ha, rfl⟩ := entryKey_eq_ok.mp (toOption_eq_some.mp hre)
  rw [hread] at hvs
  cases hvs
  exact ⟨ws, a, v, hw, ha, hv, hn⟩

/-- An index that a harmless UPDATE leaves alone keeps its entry. -/
theorem sameEntry_of_skips (hs : table.Sound store) (hi : index ∈ table.indexes)
    (hp : index.isPrimary = false) (hrow : store.space table.name none k = some r)
    (hread : table.readRow r = .ok oldValues)
    (hv : assign exprs 0 table.columns oldValues = .ok values)
    (hnew : primaryProjection table.primaryKeyIndices values = .ok newPk)
    (hk' : rowKey table.name newPk = .ok k') (hkk : newPk.eq oldPk = true → k' = k)
    (hnan : newPk.eq oldPk = true → ∀ ws ws', index.rowValues table oldValues = .ok ws →
      index.rowValues table values = .ok ws' → DataValue.eqList ws ws' = true →
      DataValue.keepsNanAll ws ws' = true)
    (hskip : Skips table exprs index oldPk newPk oldValues values) :
    SameEntry table index oldValues values k k' := by
  rcases hskip with hneeds | ⟨heq, ws, ws', hw, hw', hlist⟩
  · simp only [indexNeedsUpdate, hp, Bool.not_false, Bool.true_and, Bool.or_eq_false_iff]
      at hneeds
    obtain ⟨ws, a, v, hw, -⟩ := rowValues_of_exact (hs.exact index hi hp) hrow hread
    refine ⟨key_eq_of_unassigned (hs.keyed k r hrow) hread hv hneeds.1 hnew hk', ws, ws, hw, ?_,
      rfl⟩
    rw [rowValues_assign hv hneeds.2, hw]
  · exact ⟨hkk heq, ws, ws', hw, hw', DataValue.memcomparableEncodeAll_congr_of_eqList hlist
      (hnan heq ws ws' hw hw' hlist)⟩

/-- The entry of an input item in an index. -/
def HasEntry (table : TableCatalog) (index : IndexMeta) (item : Result Tuple) (e : Bytes) : Prop :=
  ∃ tuple id k ws a, item = .ok tuple ∧ tuple.pk = some id ∧ rowKey table.name id = .ok k ∧
    index.rowValues table tuple.values = .ok ws ∧
    DataValue.memcomparableEncodeAll ws = .ok a ∧ e = index.entry table a k

/-- A stored row that is not under its key, or that an index entry does not describe, and that no
item still to come is about. -/
structure Flaw (table : TableCatalog) (rest : List (Result Tuple)) (store : Store)
    (k bytes : Bytes) : Prop where
  row : store.space table.name none k = some bytes
  others : ∀ item ∈ rest, itemKey table.name item ≠ some k
  flaw : ¬ table.Keyed k bytes ∨ ∃ index ∈ table.indexes, index.isPrimary = false ∧ ∃ e v,
    table.Owns index k e ∧
    Stale (table.scheme index) (store.space table.name none)
      (store.space table.name (some index.id)) k bytes e v ∧
    ∀ item ∈ rest, ¬ HasEntry table index item e

theorem Flaw.not_sound (h : Flaw table [] store k bytes) : ¬ table.Sound store := by
  intro hs
  rcases h.flaw with hkey | ⟨index, hi, hp, e, v, -, hstale, -⟩
  · exact hkey (hs.keyed k bytes h.row)
  · exact hstale.not_exact (hs.exact index hi hp)

theorem Flaw.tail (h : Flaw table (item :: input) store k bytes) :
    Flaw table input store k bytes := by
  refine ⟨h.row, fun other hmem => h.others other (by simp [hmem]), ?_⟩
  rcases h.flaw with hkey | ⟨index, hi, hp, e, v, ho, hstale, hrest⟩
  · exact Or.inl hkey
  · exact Or.inr ⟨index, hi, hp, e, v, ho, hstale, fun other hmem => hrest other (by simp [hmem])⟩

/-- Updating a row leaves the other rows. -/
theorem RowUpdate.row_stays {k₁ : Bytes} {b : Bytes}
    (h : RowUpdate table exprs oldPk newPk oldValues values k k' bytes store store')
    (hrow : store.space table.name none k₁ = some b) (hne : k₁ ≠ k) :
    k₁ ≠ k' ∧ store'.space table.name none k₁ = some b := by
  have hne' : k₁ ≠ k' := by
    rintro rfl
    rw [h.free hne] at hrow
    cases hrow
  exact ⟨hne', by rw [h.rows, update_of_ne hne', update_of_ne hne, hrow]⟩

/-- Updating another row does not repair a flaw. -/
theorem Flaw.step {k₁ k₁' bytes₁ : Bytes}
    (h : Flaw table (.ok tuple :: input) store k bytes) (hpk : tuple.pk = some oldPk)
    (hk₁ : rowKey table.name oldPk = .ok k₁) (hst : table.Stores values bytes₁)
    (hrow : RowUpdate table exprs oldPk newPk tuple.values values k₁ k₁' bytes₁ store store') :
    Flaw table input store' k bytes := by
  obtain ⟨hne', hsame⟩ := hrow.row_stays h.row fun hkk =>
    h.others _ (by simp) (hkk ▸ itemKey_eq hpk hk₁)
  refine ⟨hsame, h.tail.others, ?_⟩
  rcases h.flaw with hkey | ⟨index, hi, hp, e, v, ho, hstale, hrest⟩
  · exact Or.inl hkey
  refine Or.inr ⟨index, hi, hp, e, v, ho, ⟨hsame, ?_, hstale.names, hstale.differs⟩,
    fun other hmem => hrest other (by simp [hmem])⟩
  by_cases hskip : Skips table exprs index oldPk newPk tuple.values values
  · rw [hrow.stays index hi hp hskip, hstale.stored]
  · obtain ⟨_, ⟨ws, a, hw, ha, rfl⟩, ws', a', v', hw', ha', hn, hent, hu⟩ :=
      hrow.moves index hi hp hskip
    have hdrop : e ≠ index.entry table a k₁ := by
      rintro rfl
      exact hrest _ (by simp) ⟨tuple, oldPk, k₁, ws, a, rfl, hpk, hk₁, hw, ha, rfl⟩
    have hkept : update (store.space table.name (some index.id)) (index.entry table a k₁) none e =
        some v := by
      rw [update_of_ne hdrop, hstale.stored]
    obtain ⟨types, -, howns, -⟩ := hst.entry hw' ha' k₁'
    have hadd := ho.ne_entry howns hp hstale.names hn hne' hkept hu
    rw [hent, update_of_ne hadd, hkept]

/-- A row in which an indexed NaN changed its bits has another entry than before. -/
theorem entry_ne_of_nan {ws ws' : List DataValue} {a : Bytes} (hst : table.Stores values bytes)
    (hchar : table.CharFree) (hi : index ∈ table.indexes) (hp : index.isPrimary = false)
    (hread : table.readRow r = .ok oldValues) (hw : index.rowValues table oldValues = .ok ws)
    (hw' : index.rowValues table values = .ok ws') (hlist : DataValue.eqList ws ws' = true)
    (hnan : ¬ DataValue.keepsNanAll ws ws' = true)
    (ha : DataValue.memcomparableEncodeAll ws = .ok a) (k : Bytes) :
    (table.scheme index).entry k bytes ≠ some (index.entry table a k) := by
  obtain ⟨ss, hs⟩ := hst.serializable
  have hfits := (readRow_eq_ok hread).imp fun _ _ h => h.fits
  obtain ⟨types, ht, hold, -⟩ := rowValues_typed (forall₂_serializable hfits hs) hw
  obtain ⟨types', ht', hnew, -⟩ := rowValues_typed hst.fits hw'
  rw [ht] at ht'
  cases ht'
  obtain ⟨a', ha'⟩ := (DataValue.fits_tuple_iff.mpr hnew).body_ok
  intro hentry
  rw [hst.entry_of_charFree hchar hi hp hw' ha' k, IndexMeta.entry, IndexMeta.entry,
    some.injEq, append_cancel_left_eq, append_cancel_right_eq] at hentry
  subst hentry
  exact hnan ((DataValue.memcomparableEncodeAll_eq_iff hold hnew hlist).mp (ha.trans ha'.symm))

/-- No item still to come is about the row that was just written. -/
theorem RowUpdate.others
    (h : RowUpdate table exprs oldPk newPk tuple.values values k k' bytes store store')
    (hd : Delivered table store (.ok tuple :: input)) (hpk : tuple.pk = some oldPk)
    (hk : rowKey table.name oldPk = .ok k) : ∀ item ∈ input, itemKey table.name item ≠ some k' := by
  intro item hmem hitem
  by_cases hkk : k' = k
  · subst hkk
    exact hd.itemKey_ne (itemKey_eq hpk hk) hmem hitem
  · obtain ⟨tuple₁, id₁, rfl, hpk₁, hk₁⟩ := itemKey_eq_some hitem
    obtain ⟨k₁, r₁, hkey₁, hr₁, -⟩ := hd.rows tuple₁ id₁ (by simp [hmem]) hpk₁
    rw [hk₁] at hkey₁
    cases hkey₁
    rw [h.free hkk] at hr₁
    cases hr₁

/-- An UPDATE of a row that is not harmless leaves a flaw. -/
theorem flaw_of_not_harmless (hr : Ready op table exprs templates ss) (hchar : table.CharFree)
    (hs : table.Sound store) (hd : Delivered table store (.ok tuple :: input))
    (hpk : tuple.pk = some oldPk) (hk : rowKey table.name oldPk = .ok k)
    (hr₀ : store.space table.name none k = some r) (hread : table.readRow r = .ok tuple.values)
    (hv : assign exprs 0 op.inputSchema tuple.values = .ok values)
    (hnew : primaryProjection table.primaryKeyIndices values = .ok newPk)
    (hk' : rowKey table.name newPk = .ok k') (hst : table.Stores values bytes)
    (hrow : RowUpdate table exprs oldPk newPk tuple.values values k k' bytes store store')
    (hbad : ¬ op.Harmless table exprs (.ok tuple)) : Flaw table input store' k' bytes := by
  have hothers := hrow.others hd hpk hk
  refine ⟨by rw [hrow.rows, update_self], hothers, ?_⟩
  have hkeyed := keyed_iff hr.serializers hst.fits hst.read hnew hk'
  by_cases hkeeps : table.KeepsKey values
  · refine Or.inr ?_
    by_contra hno
    refine hbad fun tuple₁ oldPk₁ values₁ newPk₁ htuple hpk₁ hv₁ hnew₁ => ?_
    cases htuple
    rw [hpk] at hpk₁
    cases hpk₁
    rw [hv] at hv₁
    cases hv₁
    rw [hnew] at hnew₁
    cases hnew₁
    refine ⟨hkeeps, fun heq index hi hp ws ws' hw hw' hlist => ?_⟩
    by_contra hnan
    have hskip : Skips table exprs index oldPk newPk tuple.values values :=
      Or.inr ⟨heq, ws, ws', hw, hw', hlist⟩
    obtain rfl := hrow.same heq
    have he := hs.exact index hi hp
    obtain ⟨_, a, v, hw₁, ha, hstored, hn⟩ := rowValues_of_exact he hr₀ hread
    rw [hw] at hw₁
    cases hw₁
    refine hno ⟨index, hi, hp, index.entry table a k', v, ?_, ⟨?_, ?_, hn, ?_⟩, ?_⟩
    · exact owns_of_entryKey (toOption_eq_some.mp (entry_of_readRow hread hw ha k'))
    · rw [hrow.rows, update_self]
    · rw [hrow.stays index hi hp hskip, hstored]
    · exact entry_ne_of_nan hst hchar hi hp hread hw hw' hlist hnan ha k'
    · rintro item hmem ⟨tuple₁, id₁, k₁, ws₁, a₁, rfl, hpk₁, hk₁, hw₁, ha₁, hentry⟩
      obtain ⟨k₂, r₂, hk₂, hr₂, hread₂⟩ := hd.rows tuple₁ id₁ (by simp [hmem]) hpk₁
      rw [hk₁] at hk₂
      cases hk₂
      have hsame := he.entry_injective hr₂ hr₀ (entry_of_readRow hread₂ hw₁ ha₁ k₁)
        (hentry ▸ entry_of_readRow hread hw ha k')
      subst hsame
      exact hothers _ hmem (itemKey_eq hpk₁ hk₁)
  · exact Or.inl fun h => hkeeps (hkeyed.mp h)

theorem typed_of_delivered (hd : Delivered table store input) (hmem : item ∈ input) :
    Typed table item := by
  rintro tuple id rfl hpk
  obtain ⟨k, r, hk, -, hread⟩ := hd.rows tuple id hmem hpk
  exact ⟨⟨k, hk⟩, readRow_eq_ok hread⟩

/-- The rows still to come are left as they were. -/
theorem delivered_after_update (hd : Delivered table store (.ok tuple :: input))
    (hpk : tuple.pk = some oldPk) (hk : rowKey table.name oldPk = .ok k)
    (hupd : RowUpdate table exprs oldPk newPk tuple.values values k k' bytes store store') :
    Delivered table store' input := by
  refine hd.tail.of_rows fun x hx b hb => ?_
  obtain ⟨other, hmem, hother⟩ := hx
  refine (hupd.row_stays hb ?_).2
  rintro rfl
  exact hd.itemKey_ne (itemKey_eq hpk hk) hmem hother

theorem nextTuple_eq_ok {result : Tuple}
    (h : op.nextTuple (some table) input store = (.ok result, store')) :
    ∃ exprs n, op.exprsMap = .ok exprs ∧
      op.updateTable table exprs input store = (.ok n, store') := by
  obtain ⟨exprs, hex, h⟩ := liftM_bind_eq_ok.mp h
  obtain ⟨n, hrun, -⟩ := bind_pure_eq_ok.mp h
  exact ⟨exprs, n, hex, hrun⟩

theorem updateTable_eq_ok (h : op.updateTable table exprs input store = (.ok n, store')) :
    ∃ templates ss, table.indexTemplates = .ok templates ∧
      op.serializers = .ok ss ∧
      (input.foldlM (op.updateRow table.name
        ⟨table.columns, table.primaryKeyIndices, templates⟩ ss exprs) 0) store =
          (.ok n, store') := by
  obtain ⟨snapshot, hsnap, h⟩ := liftM_bind_eq_ok.mp h
  obtain ⟨templates, ht, hsnap⟩ := Result.bind_eq_ok.mp hsnap
  cases hsnap
  obtain ⟨ss, hs, h⟩ := liftM_bind_eq_ok.mp h
  exact ⟨templates, ss, ht, hs, h⟩

/-- An UPDATE keeps the table sound when, and only when, it is harmless for every row. -/
theorem updateTable_sound_iff (hw : table.WellFormed) (hchar : table.CharFree)
    (hschema : op.inputSchema = table.columns)
    (hassigned : ∀ assignment ∈ op.valueExprs, assignment.1 ∈ table.columns)
    (hex : op.exprsMap = .ok exprs) (hd : Delivered table store input)
    (hshort : ∀ item ∈ input, op.Short exprs item) (hsound : table.Sound store)
    (h : op.updateTable table exprs input store = (.ok n, store')) :
    table.Sound store' ↔ ∀ item ∈ input, op.Harmless table exprs item := by
  obtain ⟨templates, ss, ht, hss, hloop⟩ := updateTable_eq_ok h
  have hr := ready hw hschema hassigned hex ht hss
  have hs := hr.serializers
  have hrun := foldlM_dichotomy
    (I := fun rest s => table.Sound s ∧ Delivered table s rest ∧
      ∀ item ∈ rest, op.Short exprs item)
    (F := fun rest s => (∀ item ∈ rest, op.Short exprs item ∧ Typed table item) ∧
      ∃ k bytes, Flaw table rest s k bytes)
    (C := op.Harmless table exprs) hloop ?_ ?_ ?_ ⟨hsound, hd, hshort⟩
  · rcases hrun with ⟨hall, hgood, -⟩ | ⟨⟨item, hmem, hbad⟩, -, k, bytes, hflaw⟩
    · exact ⟨fun _ => hall, fun _ => hgood⟩
    · exact ⟨fun hgood => absurd hgood hflaw.not_sound, fun hall => absurd (hall item hmem) hbad⟩
  · rintro item rest n s m t ⟨hsd, hdel, hsh⟩ hstep hgood
    rw [forall_mem_cons] at hsh
    obtain ⟨tuple, rfl, ⟨hpk, rfl⟩ | ⟨oldPk, hpk, hrow⟩⟩ := updateRow_cases hstep
    · exact ⟨hsd, hdel.tail, hsh.2⟩
    obtain ⟨k, r, hk, hr₀, hread⟩ := hdel.rows tuple oldPk (by simp) hpk
    obtain ⟨values, newPk, k', bytes, hv, hnew, hk', hst, hupd⟩ :=
      hr.rewriteRow hsh.1 (typed_of_delivered hdel (by simp)) hpk hk hrow
    obtain ⟨hkeeps, hnan⟩ := hgood tuple oldPk values newPk rfl hpk hv hnew
    refine ⟨?_, ?_, hsh.2⟩
    · refine hupd.sound hsd hst hchar hr₀ hread
        ((keyed_iff hs hst.fits hst.read hnew hk').mpr hkeeps) fun index hi hp hskip => ?_
      rw [hschema] at hv
      exact sameEntry_of_skips hsd hi hp hr₀ hread hv hnew hk' hupd.same
        (fun heq => hnan heq index hi hp) hskip
    · exact delivered_after_update hdel hpk hk hupd
  · rintro item rest n s m t ⟨hsd, hdel, hsh⟩ hstep hbad
    rw [forall_mem_cons] at hsh
    obtain ⟨tuple, rfl, ⟨hpk, rfl⟩ | ⟨oldPk, hpk, hrow⟩⟩ := updateRow_cases hstep
    · refine absurd (fun tuple₁ oldPk values newPk htuple hpk₁ => ?_) hbad
      cases htuple
      rw [hpk] at hpk₁
      cases hpk₁
    obtain ⟨k, r, hk, hr₀, hread⟩ := hdel.rows tuple oldPk (by simp) hpk
    obtain ⟨values, newPk, k', bytes, hv, hnew, hk', hst, hupd⟩ :=
      hr.rewriteRow hsh.1 (typed_of_delivered hdel (by simp)) hpk hk hrow
    refine ⟨fun item hmem => ⟨hsh.2 item hmem, typed_of_delivered hdel.tail hmem⟩, k', bytes, ?_⟩
    exact flaw_of_not_harmless hr hchar hsd hdel hpk hk hr₀ hread hv hnew hk' hst hupd hbad
  · rintro item rest n s m t ⟨hst, k, bytes, hflaw⟩ hstep
    rw [forall_mem_cons] at hst
    obtain ⟨tuple, rfl, ⟨hpk, rfl⟩ | ⟨oldPk, hpk, hrow⟩⟩ := updateRow_cases hstep
    · exact ⟨hst.2, k, bytes, hflaw.tail⟩
    obtain ⟨k₁, hk₁⟩ := (hst.1.2 tuple oldPk rfl hpk).1
    obtain ⟨values, newPk, k₁', bytes₁, -, -, -, hst₁, hupd⟩ :=
      hr.rewriteRow hst.1.1 hst.1.2 hpk hk₁ hrow
    exact ⟨hst.2, k, bytes, hflaw.step hpk hk₁ hst₁ hupd⟩

end Update

end KiteSQL
