import KiteSQL.Execution.FailedInsert

/-! The keys that INSERT makes against the row as it is read back. -/
namespace KiteSQL

open TableCodec Function IndexedRows TableCatalog List

section CharKeys

variable [DecimalLayout] {table : TableCatalog} {index : IndexMeta} {store store' : Store}
  {values : List DataValue} {k bytes : Bytes}

/-- The key of a stored row and its only entry in every index are those that the row, as it is
read, encodes to. -/
structure TableCatalog.ReadsBack (table : TableCatalog) (store : Store) (k bytes : Bytes) :
    Prop where
  keyed : table.Keyed k bytes
  entries : ∀ index ∈ table.indexes, index.isPrimary = false → ∃ e,
    (table.scheme index).entry k bytes = some e ∧
      Only (table.scheme index) (store.space table.name (some index.id)) k e

/-- The row under a key has these values, and one entry in every index, made from them. -/
structure TableCatalog.Carries (table : TableCatalog) (store : Store) (values : List DataValue)
    (k bytes : Bytes) : Prop where
  key : table.keyOf values = .ok k
  row : store.space table.name none k = some bytes
  stores : table.Stores values bytes
  entries : ∀ index ∈ table.indexes, index.isPrimary = false → ∃ ws a,
    index.rowValues table values = .ok ws ∧ DataValue.memcomparableEncodeAll ws = .ok a ∧
      Only (table.scheme index) (store.space table.name (some index.id)) k
        (index.entry table a k)

namespace TableCatalog

/-- What was made for a row is what the row is read as when no key column cuts spaces off. -/
theorem Carries.readsBack_iff (h : table.Carries store values k bytes) :
    table.ReadsBack store k bytes ↔ table.KeepsKey values ∧
      ∀ index ∈ table.indexes, index.isPrimary = false → ∀ ws types,
        index.rowValues table values = .ok ws → index.rowTypes table = .ok types →
        Forall₂ DataValue.keepsText ws types := by
  obtain ⟨ss, hs⟩ := h.stores.serializable
  obtain ⟨id, hid, hk⟩ := Result.bind_eq_ok.mp h.key
  have hkeyed := keyed_iff hs h.stores.fits h.stores.read hid hk
  constructor
  · rintro ⟨hkey, hentries⟩
    refine ⟨hkeyed.mp hkey, fun index hi hp ws types hws ht => ?_⟩
    obtain ⟨ws', a, hws', ha, honly⟩ := h.entries index hi hp
    rw [hws] at hws'
    cases hws'
    obtain ⟨types', ht', -, hiff⟩ := h.stores.entry hws ha k
    rw [ht] at ht'
    cases ht'
    obtain ⟨e, he, honly'⟩ := hentries index hi hp
    obtain ⟨v, hv, hn⟩ := honly.stored
    rw [← honly'.only _ v hv hn] at he
    exact hiff.mp he
  · rintro ⟨hkey, htexts⟩
    refine ⟨hkeyed.mpr hkey, fun index hi hp => ?_⟩
    obtain ⟨ws, a, hws, ha, honly⟩ := h.entries index hi hp
    obtain ⟨types, ht, -, hiff⟩ := h.stores.entry hws ha k
    exact ⟨_, hiff.mpr (htexts index hi hp ws types hws ht), honly⟩

/-- Inserting another row leaves what was made for a row. -/
theorem Carries.insert {values₁ : List DataValue} {k₁ bytes₁ : Bytes}
    (h : table.Carries store values k bytes)
    (hrow : RowInsert table values₁ false k₁ bytes₁ store store')
    (hst : table.Stores values₁ bytes₁) : table.Carries store' values k bytes := by
  have hne : k ≠ k₁ := by
    rintro rfl
    have hfree := hrow.free rfl
    rw [h.row] at hfree
    cases hfree
  refine ⟨h.key, by rw [hrow.rows, update_of_ne hne, h.row], h.stores, fun index hi hp => ?_⟩
  obtain ⟨ws, a, hws, ha, honly⟩ := h.entries index hi hp
  obtain ⟨ws₁, a₁, v₁, hws₁, ha₁, hn₁, hent, hu⟩ := hrow.indexes index hi hp
  obtain ⟨-, -, howns, -⟩ := h.stores.entry hws ha k
  obtain ⟨-, -, howns₁, -⟩ := hst.entry hws₁ ha₁ k₁
  obtain ⟨v, hv, hn⟩ := honly.stored
  refine ⟨ws, a, hws, ha, ?_⟩
  rw [hent]
  exact honly.add_other hn₁ hne (howns.ne_entry howns₁ hp hn hn₁ hne hv hu)

/-- A row that is inserted carries what was made for it. -/
theorem carries_of_insert
    (hg : ∀ index ∈ table.indexes, index.isPrimary = false →
      Grounded (table.scheme index) (store.space table.name none)
      (store.space table.name (some index.id))) (hkey : table.keyOf values = .ok k)
    (hst : table.Stores values bytes) (hrow : RowInsert table values false k bytes store store') :
    table.Carries store' values k bytes := by
  refine ⟨hkey, by rw [hrow.rows, update_self], hst, fun index hi hp => ?_⟩
  obtain ⟨ws, a, v, hws, ha, hn, hent, -⟩ := hrow.indexes index hi hp
  refine ⟨ws, a, hws, ha, ?_⟩
  rw [hent]
  exact (hg index hi hp).only_add (hrow.free rfl) hn

end TableCatalog

namespace Insert

variable [Conversions] {op : Insert} {input : List (Result Tuple)} {n m : Nat}
  {templates : List (IndexMeta × List Nat)} {ss : List TupleValueSerializableImpl}

/-- After an INSERT every input row is stored with what was made for it. -/
theorem foldlM_carries (hw : table.WellFormed) (ht : table.indexTemplates = .ok templates)
    (hs : table.serializers = .ok ss) (ho : op.isOverwrite = false)
    (hshort : ∀ item ∈ input, op.Short table item) (hexact : table.IndexesExact store)
    (h : (input.foldlM (op.insertRow table.name
      ⟨table.columns, table.primaryKeyIndices, templates⟩ ss) n) store = (.ok m, store')) :
    ∀ item ∈ input, ∃ values k bytes, op.rowOf table item = .ok values ∧
      table.Carries store' values k bytes := by
  have hrun := Stateful.foldlM_rest (I := fun rest s => (∀ item ∈ rest, op.Short table item) ∧
    (∀ index ∈ table.indexes, index.isPrimary = false →
      Grounded (table.scheme index) (s.space table.name none)
        (s.space table.name (some index.id))) ∧
    ∀ item ∈ input, item ∈ rest ∨ ∃ values k bytes, op.rowOf table item = .ok values ∧
      table.Carries s values k bytes) h ?_
    ⟨hshort, fun index hi hp => (hexact index hi hp).grounded, fun _ hmem => Or.inl hmem⟩
  · intro item hmem
    rcases hrun.2.2 item hmem with hnil | hdone
    · cases hnil
    · exact hdone
  rintro item rest n s m t ⟨hsh, hg, hdone⟩ hstep
  rw [forall_mem_cons] at hsh
  obtain ⟨tuple, values, id, k, bytes, rfl, hvalues, hid, hk, hst, hrow⟩ :=
    insertRow_spec hw ht hs hsh.1 hstep
  rw [ho] at hrow
  refine ⟨hsh.2, fun index hi hp => ?_, fun other hmem => ?_⟩
  · obtain ⟨ws, a, v, -, -, hn, hent, -⟩ := hrow.indexes index hi hp
    rw [hrow.rows, hent]
    exact (hg index hi hp).insert hn
  · rcases hdone other hmem with hin | ⟨values₀, k₀, bytes₀, hvalues₀, hcarries⟩
    · rcases mem_cons.mp hin with rfl | hin
      · refine Or.inr ⟨values, k, bytes, hvalues, carries_of_insert hg ?_ hst hrow⟩
        rw [TableCatalog.keyOf, hid]
        exact hk
      · exact Or.inl hin
    · exact Or.inr ⟨values₀, k₀, bytes₀, hvalues₀, hcarries.insert hrow hst⟩

/-- After an INSERT each of its rows is stored, and its key and entries are those of the row as it
is read when, and only when, no primary key or index column cut spaces off. -/
theorem nextTuple_readsBack_iff {result : Tuple} (hw : table.WellFormed)
    (ho : op.isOverwrite = false) (hshort : ∀ item ∈ input, op.Short table item)
    (hexact : table.IndexesExact store)
    (h : op.nextTuple (some table) input store = (.ok result, store')) :
    ∀ item ∈ input, ∃ values k bytes, op.rowOf table item = .ok values ∧
      table.keyOf values = .ok k ∧ store'.space table.name none k = some bytes ∧
      table.readRow bytes = .ok (Tuple.keptAll values table.columnTypes) ∧
      (table.ReadsBack store' k bytes ↔ table.KeepsKey values ∧
        ∀ index ∈ table.indexes, index.isPrimary = false → ∀ ws types,
          index.rowValues table values = .ok ws → index.rowTypes table = .ok types →
          List.Forall₂ DataValue.keepsText ws types) := by
  obtain ⟨n, hrun, -⟩ := Stateful.bind_pure_eq_ok.mp h
  obtain ⟨templates, ss, ht, hs, hloop⟩ := insertTable_eq_ok hrun
  intro item hmem
  obtain ⟨values, k, bytes, hvalues, hcarries⟩ :=
    foldlM_carries hw ht hs ho hshort hexact hloop item hmem
  exact ⟨values, k, bytes, hvalues, hcarries.key, hcarries.row, hcarries.stores.read,
    hcarries.readsBack_iff⟩

end Insert

end CharKeys

/-- A table of `CHAR(3)` keys. -/
def charKeyed : TableCatalog where
  name := "t"
  columns := [⟨⟨"c", .table 1 "t" false⟩, false, ⟨.char 3 .characters, some 0, false, none⟩⟩]
  indexes := [⟨0, [1], .char 3 .characters, .char 3 .characters, "pk_index", .primaryKey false⟩]

namespace Insert

def charInsert : Insert := ⟨charKeyed.columns, false, false⟩

def charRow (value : String) : List (Result Tuple) :=
  [.ok ⟨none, [.utf8 value (.variable none) .characters]⟩]

theorem charKeyed_wellFormed : charKeyed.WellFormed := by
  constructor <;> decide

theorem short_charRow {value : String}
    (hbuild : @buildRow .refusing charInsert charKeyed.columns
      [.utf8 value (.variable none) .characters] = .ok [.utf8 value (.fixed 3) .characters])
    (hlen : (DataValue.utf8 value (.fixed 3) .characters).writtenLen < 2 ^ 32) :
    ∀ item ∈ charRow value, @Short .refusing charInsert charKeyed item := by
  intro item hmem tuple values hitem hvalues v hv
  rw [mem_singleton.mp hmem] at hitem
  cases hitem
  rw [hbuild] at hvalues
  cases hvalues
  rwa [mem_singleton.mp hv]

theorem plain_key_read :
    ∃ result store' k bytes,
      @nextTuple .refusing .flagsFirst charInsert (some charKeyed) (charRow "ab") ∅ =
        (.ok result, store') ∧
      store'.space "t" none k = some bytes ∧
      @TableCatalog.ReadsBack .flagsFirst charKeyed store' k bytes := by
  let _ := DecimalLayout.flagsFirst
  let _ := Conversions.refusing
  have hrun : charInsert.nextTuple (some charKeyed) (charRow "ab") ∅ =
      (.ok (buildResult "1"), (charInsert.nextTuple (some charKeyed) (charRow "ab") ∅).2) := rfl
  obtain ⟨values, k, bytes, hvalues, -, hrow, -, hiff⟩ := nextTuple_readsBack_iff
    charKeyed_wellFormed rfl (short_charRow rfl (by decide)) (sound_empty charKeyed).exact hrun _
    (List.mem_singleton_self _)
  refine ⟨_, _, k, bytes, hrun, hrow, hiff.mpr ⟨?_, fun index hi hp => ?_⟩⟩
  · cases hvalues
    intro i hi v hv
    obtain rfl : i = 0 := by simpa [primaryKeyIndices, charKeyed] using hi
    cases hv
    rfl
  · cases List.mem_singleton.mp hi
    cases hp

/-- The key of a text with a trailing space is not the key of the text that is read. -/
theorem spaced_key_not_read :
    ∃ result store' k bytes, @TableCatalog.IndexesExact .flagsFirst charKeyed ∅ ∧
      @nextTuple .refusing .flagsFirst charInsert (some charKeyed) (charRow "ab ") ∅ =
        (.ok result, store') ∧
      store'.space "t" none k = some bytes ∧
      ¬ @TableCatalog.ReadsBack .flagsFirst charKeyed store' k bytes := by
  let _ := DecimalLayout.flagsFirst
  let _ := Conversions.refusing
  have hrun : charInsert.insertTable charKeyed (charRow "ab ") ∅ =
      (.ok 1, (charInsert.insertTable charKeyed (charRow "ab ") ∅).2) := rfl
  have hexact := (sound_empty charKeyed).exact
  obtain ⟨templates, ss, ht, hs, hloop⟩ := insertTable_eq_ok hrun
  obtain ⟨values, k, bytes, hvalues, hcarries⟩ := foldlM_carries charKeyed_wellFormed ht hs rfl
    (short_charRow rfl (by decide)) hexact hloop _ (List.mem_singleton_self _)
  refine ⟨buildResult "1", _, k, bytes, hexact, rfl, hcarries.row, fun hread => ?_⟩
  cases hvalues
  have hkeeps : trimEnd "ab " = "ab " :=
    (hcarries.readsBack_iff.mp hread).1 0 (by decide) _ rfl
  exact absurd hkeeps (by decide)

end Insert

end KiteSQL
