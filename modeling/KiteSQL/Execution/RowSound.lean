import KiteSQL.Execution.Assign
import KiteSQL.Storage.RowKeys

/-! Writing one row keeps the indexes of its table exact. -/
namespace KiteSQL

open TableCodec Function IndexedRows DataValue

variable [DecimalLayout] {table : TableCatalog} {index : IndexMeta} {store store' : Store}
  {values oldValues ws : List DataValue} {k k' bytes r a : Bytes} {oldPk newPk id : DataValue}
  {ss : List TupleValueSerializableImpl} {exprs : List (ColumnId × ScalarExpression)}

namespace TableCatalog

/-- Every secondary index is exact and every row stands under the key of its primary key. -/
structure Sound (table : TableCatalog) (store : Store) : Prop where
  exact : table.IndexesExact store
  keyed : table.RowsKeyed store

theorem Sound.of_space (h : table.Sound store)
    (hsame : ∀ part, store'.space table.name part = store.space table.name part) :
    table.Sound store' := by
  refine ⟨fun index hi hp => ?_, fun k bytes hrow => ?_⟩
  · rw [hsame, hsame]
    exact h.exact index hi hp
  · rw [hsame] at hrow
    exact h.keyed k bytes hrow

theorem sound_empty (table : TableCatalog) : table.Sound ∅ := by
  refine ⟨fun index hi hp => ?_, fun k bytes hrow => ?_⟩
  · rw [Store.space_empty, Store.space_empty]
    exact exact_empty
  · rw [Store.space_empty] at hrow
    cases hrow

/-- No secondary index has a CHAR column. -/
def CharFree (table : TableCatalog) : Prop :=
  ∀ index ∈ table.indexes, index.isPrimary = false → ∀ types, index.rowTypes table = .ok types →
    ∀ len unit, .char len unit ∉ types

/-- The bytes are those of a row with these values. -/
structure Stores (table : TableCatalog) (values : List DataValue) (bytes : Bytes) : Prop where
  serializable : ∃ ss, table.serializers = .ok ss
  fits : List.Forall₂ DataValue.Fits values table.columnTypes
  read : table.readRow bytes = .ok (Tuple.keptAll values table.columnTypes)

theorem stores_of_serializeTo (hs : table.serializers = .ok ss)
    (hc : List.Forall₂ declaresChar values table.columnTypes)
    (hl : ∀ v ∈ values, v.writtenLen < 2 ^ 32) (hb : Tuple.serializeTo values ss = .ok bytes) :
    table.Stores values bytes :=
  ⟨⟨ss, hs⟩, Tuple.fits_of_serializeTo hs hc.length_eq hb, readRow_serialized hs hc hl hb⟩

/-- The entry that was made for a stored row, and when the row has it. -/
theorem Stores.entry (h : table.Stores values bytes) (hw : index.rowValues table values = .ok ws)
    (ha : memcomparableEncodeAll ws = .ok a) (k : Bytes) :
    ∃ types, index.rowTypes table = .ok types ∧ table.Owns index k (index.entry table a k) ∧
      ((table.scheme index).entry k bytes = some (index.entry table a k) ↔
        List.Forall₂ keepsText ws types) := by
  obtain ⟨ss, hs⟩ := h.serializable
  obtain ⟨types, ht, hiff⟩ := entryKey_serialized (k := k) hs h.fits h.read hw ha
  obtain ⟨types', ht', hfits, -⟩ := rowValues_typed h.fits hw
  rw [ht] at ht'
  cases ht'
  refine ⟨types, ht, ⟨types, ws, a, ht, fits_tuple_iff.mpr hfits, ha, rfl⟩, ?_⟩
  rw [← hiff]
  exact toOption_eq_some

/-- Without CHAR columns in the index, a stored row has the entry that was made for it. -/
theorem Stores.entry_of_charFree (h : table.Stores values bytes) (hchar : table.CharFree)
    (hi : index ∈ table.indexes) (hp : index.isPrimary = false)
    (hw : index.rowValues table values = .ok ws) (ha : memcomparableEncodeAll ws = .ok a)
    (k : Bytes) : (table.scheme index).entry k bytes = some (index.entry table a k) := by
  obtain ⟨types, ht, -, hiff⟩ := h.entry hw ha k
  obtain ⟨types', ht', hfits, -⟩ := rowValues_typed h.fits hw
  rw [ht] at ht'
  cases ht'
  exact hiff.mpr (keepsText_of_not_char hfits.length_eq (hchar index hi hp types ht))

/-- Entries of different rows are different. -/
theorem Owns.ne_entry {k₁ e e₁ v v₁ : Bytes} {entries : Bytes → Option Bytes}
    (ho : table.Owns index k e) (ho₁ : table.Owns index k₁ e₁) (hp : index.isPrimary = false)
    (hn : (table.scheme index).names v = some k) (hn₁ : (table.scheme index).names v₁ = some k₁)
    (hne : k ≠ k₁) (hv : entries e = some v)
    (hu : index.ty = .unique → ∀ b, entries e₁ = some b → b = v₁) : e ≠ e₁ := by
  rintro rfl
  by_cases hty : index.ty = .unique
  · rw [hu hty v hv, hn₁] at hn
    exact hne (Option.some.inj hn).symm
  · exact hne (ho.key_eq ho₁ hp hty (isPrefix_of_names hn) (isPrefix_of_names hn₁))

theorem entry_of_readRow (hread : table.readRow bytes = .ok values)
    (hw : index.rowValues table values = .ok ws) (ha : memcomparableEncodeAll ws = .ok a)
    (k : Bytes) : (table.scheme index).entry k bytes = some (index.entry table a k) :=
  toOption_eq_some.mpr (entryKey_eq_ok.mpr ⟨values, ws, a, hread, hw, ha, rfl⟩)

end TableCatalog

open TableCatalog

/-- Only one row changed, so the rows are keyed when it is. -/
theorem rowsKeyed_of_row (hk : table.RowsKeyed store)
    (hold : ∀ x b, x ≠ k → store'.space table.name none x = some b →
      store.space table.name none x = some b) (hnew : store'.space table.name none k = some bytes)
    (hrow : table.Keyed k bytes) : table.RowsKeyed store' := by
  intro x b hx
  by_cases hxk : x = k
  · subst hxk
    rw [hnew] at hx
    cases hx
    exact hrow
  · exact hk x b (hold x b hxk hx)

theorem RowInsert.exact_index {isOverwrite : Bool}
    (h : RowInsert table values isOverwrite k bytes store store')
    (he : Exact (table.scheme index) (store.space table.name none)
      (store.space table.name (some index.id)))
    (hi : index ∈ table.indexes) (hp : index.isPrimary = false)
    (hst : table.Stores values bytes) (hfree : store.space table.name none k = none)
    (hkeeps : ∀ ws types, index.rowValues table values = .ok ws →
      index.rowTypes table = .ok types → List.Forall₂ keepsText ws types) :
    Exact (table.scheme index) (store'.space table.name none)
      (store'.space table.name (some index.id)) := by
  obtain ⟨ws, a, v, hw, ha, hn, hent, hu⟩ := h.indexes index hi hp
  obtain ⟨types, ht, howns, hiff⟩ := hst.entry hw ha k
  rw [h.rows, hent]
  exact he.insert hfree (he.free hfree ((owned_of_exact he).free hp howns hn hu))
    (hiff.mpr (hkeeps ws types hw ht)) hn

theorem RowInsert.sound (h : RowInsert table values false k bytes store store')
    (hs : table.Sound store) (hst : table.Stores values bytes) (hchar : table.CharFree)
    (hkey : table.Keyed k bytes) : table.Sound store' := by
  refine ⟨fun index hi hp => ?_, ?_⟩
  · refine h.exact_index (hs.exact index hi hp) hi hp hst (h.free rfl) fun ws types hw ht => ?_
    obtain ⟨types', ht', hfits, -⟩ := rowValues_typed hst.fits hw
    rw [ht] at ht'
    cases ht'
    exact keepsText_of_not_char hfits.length_eq (hchar index hi hp types ht)
  · refine rowsKeyed_of_row hs.keyed (fun x b hx hb => ?_) (by rw [h.rows, update_self]) hkey
    rwa [h.rows, update_of_ne hx] at hb

theorem RowDelete.sound (h : RowDelete table values k store store') (hs : table.Sound store)
    (hrow : store.space table.name none k = some r) (hread : table.readRow r = .ok values) :
    table.Sound store' := by
  refine ⟨fun index hi hp => ?_, fun x b hx => ?_⟩
  · obtain ⟨ws, a, hw, ha, hent⟩ := h.indexes index hi hp
    rw [h.rows, hent]
    exact (hs.exact index hi hp).remove hrow (entry_of_readRow hread hw ha k)
  · rw [h.rows] at hx
    rcases update_eq_some_iff.mp hx with ⟨rfl, ⟨⟩⟩ | ⟨hxk, hx⟩
    exact hs.keyed x b hx

namespace Update

/-- An index that is left alone keeps its entry for the row: the key stays, and so do the encoded
index values. -/
def SameEntry (table : TableCatalog) (index : IndexMeta) (oldValues values : List DataValue)
    (k k' : Bytes) : Prop :=
  k' = k ∧ ∃ ws ws', index.rowValues table oldValues = .ok ws ∧
    index.rowValues table values = .ok ws' ∧
    DataValue.memcomparableEncodeAll ws = DataValue.memcomparableEncodeAll ws'

section

variable (h : RowUpdate table exprs oldPk newPk oldValues values k k' bytes store store')
include h

theorem RowUpdate.exact_index (hs : table.Sound store) (hi : index ∈ table.indexes)
    (hp : index.isPrimary = false) (hst : table.Stores values bytes) (hchar : table.CharFree)
    (hrow : store.space table.name none k = some r) (hread : table.readRow r = .ok oldValues)
    (hsame : Skips table exprs index oldPk newPk oldValues values →
      SameEntry table index oldValues values k k') :
    Exact (table.scheme index) (store'.space table.name none)
      (store'.space table.name (some index.id)) := by
  have he := hs.exact index hi hp
  by_cases hskip : Skips table exprs index oldPk newPk oldValues values
  · have hent := h.stays index hi hp hskip
    obtain ⟨rfl, ws, ws', hw, hw', henc⟩ := hsame hskip
    obtain ⟨e, v, hre, -, -⟩ := he.listed _ r hrow
    obtain ⟨vs, xs, a, hv, hx, ha, rfl⟩ := entryKey_eq_ok.mp (toOption_eq_some.mp hre)
    rw [hread] at hv
    cases hv
    rw [hw] at hx
    cases hx
    rw [h.rows, hent, update_idem]
    exact he.rewrite hrow hre (hst.entry_of_charFree hchar hi hp hw' (henc ▸ ha) _)
  · obtain ⟨_, ⟨ws, a, hw, ha, rfl⟩, ws', a', v, hw', ha', hn, hent, hu⟩ :=
      h.moves index hi hp hskip
    have hgone := he.remove hrow (entry_of_readRow hread hw ha k)
    have hfree : update (store.space table.name none) k none k' = none := by
      by_cases hk : k' = k
      · rw [hk, update_self]
      · rw [update_of_ne hk, h.free hk]
    obtain ⟨types, -, howns, -⟩ := hst.entry hw' ha' k'
    rw [h.rows, hent]
    exact hgone.insert hfree (hgone.free hfree ((owned_of_exact hgone).free hp howns hn hu))
      (hst.entry_of_charFree hchar hi hp hw' ha' k') hn

theorem RowUpdate.sound (hs : table.Sound store) (hst : table.Stores values bytes)
    (hchar : table.CharFree) (hrow : store.space table.name none k = some r)
    (hread : table.readRow r = .ok oldValues) (hkey : table.Keyed k' bytes)
    (hsame : ∀ index ∈ table.indexes, index.isPrimary = false →
      Skips table exprs index oldPk newPk oldValues values →
      SameEntry table index oldValues values k k') : table.Sound store' := by
  refine ⟨fun index hi hp => ?_, ?_⟩
  · exact h.exact_index hs hi hp hst hchar hrow hread (hsame index hi hp)
  · refine rowsKeyed_of_row hs.keyed (fun x b hx hb => ?_) (by rw [h.rows, update_self]) hkey
    rw [h.rows, update_of_ne hx] at hb
    rcases update_eq_some_iff.mp hb with ⟨rfl, ⟨⟩⟩ | ⟨hxk, hb⟩
    exact hb

end

end Update

end KiteSQL
