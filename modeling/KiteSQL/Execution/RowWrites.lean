import KiteSQL.Execution.Dml
import KiteSQL.Storage.IndexedTable

/-! What writing one row does to the rows of its table and to each of its indexes. -/
namespace KiteSQL

open TableCodec Function Stateful TableCatalog List Tuple Traverse

namespace TableCatalog

variable {table : TableCatalog} {index : IndexMeta} {templates : List (IndexMeta × List Nat)}
  {template : IndexMeta × List Nat} {values : List DataValue}

theorem indexTemplates_spec (h : table.indexTemplates = .ok templates) :
    templates.map Prod.fst = table.indexes ∧
      ∀ template ∈ templates, template.1.columnExprs table = .ok template.2 := by
  have hf := forall₂_of_mapM h
  clear h
  generalize table.indexes = indexes at hf
  induction hf with
  | nil => simp
  | cons hx _ ih =>
    obtain ⟨exprs, he, hx⟩ := Result.bind_eq_ok.mp hx
    cases hx
    simpa [ih.1, he] using ih.2

/-- The position of an index column is the place of a column with its id. -/
theorem mem_columnExprs {exprs : List Nat} {j : Nat} (h : index.columnExprs table = .ok exprs)
    (hj : j ∈ exprs) : ∃ columnId ∈ index.columnIds, ∃ column, table.columns[j]? = some column ∧
      column.id = some columnId := by
  obtain ⟨columnId, hmem, hx⟩ := exists_of_mem_mapM h hj
  refine ⟨columnId, hmem, ?_⟩
  split at hx
  · next position hfind =>
    cases hx
    obtain ⟨hlt, hid, -⟩ := findIdx?_eq_some_iff_getElem.mp hfind
    exact ⟨table.columns[j], getElem?_eq_getElem hlt, by simpa using hid⟩
  · cases hx

theorem rewrite_eq (h : template.1.columnExprs table = .ok template.2) :
    rewrite template.2 values = template.1.rowValues table values := by
  rw [IndexMeta.rowValues, h]
  rfl

/-- Evaluating the expressions of some indexes over a row gives their values in the row. -/
theorem mapM_rewrite_spec {old : List ((IndexMeta × List Nat) × List DataValue)}
    (hexprs : ∀ template ∈ templates, template.1.columnExprs table = .ok template.2)
    (h : (templates.mapM fun template => do return (template, ← rewrite template.2 values)) =
      (.ok old : Result _)) :
    old.map Prod.fst = templates ∧ ∀ x ∈ old, x.1.1.rowValues table values = .ok x.2 := by
  have hf := forall₂_of_mapM h
  clear h
  induction hf with
  | nil => simp
  | cons hx _ ih =>
    obtain ⟨ws, hws, hx⟩ := Result.bind_eq_ok.mp hx
    cases hx
    rw [forall_mem_cons] at hexprs
    obtain ⟨hmap, hvals⟩ := ih hexprs.2
    rw [rewrite_eq hexprs.1] at hws
    simpa [hmap, hws] using hvals

variable [DecimalLayout]

/-- The entry for a row under a key was added to an index. -/
def Adds (table : TableCatalog) (index : IndexMeta) (values : List DataValue) (k : Bytes)
    (entries entries' : Bytes → Option Bytes) : Prop :=
  ∃ ws a v, index.rowValues table values = .ok ws ∧
    DataValue.memcomparableEncodeAll ws = .ok a ∧ (table.scheme index).names v = some k ∧
    entries' = update entries (index.entry table a k) (some v) ∧
    (index.ty = .unique → ∀ b, entries (index.entry table a k) = some b → b = v)

/-- The entry for a row under a key was taken out of an index. -/
def Drops (table : TableCatalog) (index : IndexMeta) (values : List DataValue) (k : Bytes)
    (entries entries' : Bytes → Option Bytes) : Prop :=
  ∃ ws a, index.rowValues table values = .ok ws ∧
    DataValue.memcomparableEncodeAll ws = .ok a ∧
    entries' = update entries (index.entry table a k) none

end TableCatalog

variable {table : TableCatalog} {index : IndexMeta} {store store' : Store}
  {templates : List (IndexMeta × List Nat)} {template : IndexMeta × List Nat}
  {values : List DataValue} {id : DataValue} {k : Bytes} {part : Option UInt32} {u : Unit}
  {tableName : String}

theorem nodup_parts (hw : table.WellFormed) (ht : table.indexTemplates = .ok templates) :
    (templates.map fun template => some template.1.id).Nodup := by
  have hid := hw.indexIds
  rw [← (indexTemplates_spec ht).1, map_map] at hid
  have hmap := hid.map (Option.some_injective UInt32)
  rwa [map_map] at hmap

theorem removeTuple_space (h : store.removeTuple tableName id = .ok store')
    (hk : rowKey tableName id = .ok k) :
    store'.space tableName none = update (store.space tableName none) k none ∧
      ∀ part, part ≠ none → store'.space tableName part = store.space tableName part := by
  obtain ⟨k', hk', hs⟩ := removeTuple_eq_ok h
  rw [hk] at hk'
  cases hk'
  exact space_update none hs (isPrefix_rowKey hk)

section Loop

variable {g : IndexMeta × List Nat → Exec Unit}
  {P : IndexMeta → (Bytes → Option Bytes) → (Bytes → Option Bytes) → Prop} (hw : table.WellFormed)
  (hframe : ∀ template store store' part, g template store = (.ok ⟨⟩, store') → part ≠ some
    template.1.id → store'.space table.name part = store.space table.name part) (hg : ∀ template
    store store', template.1.isPrimary = false → template.1.columnExprs table = .ok template.2 → g
    template store = (.ok ⟨⟩, store') → P template.1 (store.space table.name (some template.1.id))
    (store'.space table.name (some template.1.id)))

include hw hframe hg

/-- A loop over the first indexes that writes to each once does to each what it says. -/
theorem forM_templates_append {pre post : List (IndexMeta × List Nat)}
    (ht : table.indexTemplates = .ok (pre ++ post)) (h : (pre.forM g) store = (.ok u, store')) :
    store'.space table.name none = store.space table.name none ∧
      (∀ template ∈ pre, template.1.isPrimary = false →
        P template.1 (store.space table.name (some template.1.id))
          (store'.space table.name (some template.1.id))) ∧
      ∀ template ∈ post, store'.space table.name (some template.1.id) =
        store.space table.name (some template.1.id) := by
  obtain ⟨-, hexprs⟩ := indexTemplates_spec ht
  have hnodup := nodup_parts hw ht
  rw [map_append, nodup_append'] at hnodup
  obtain ⟨hpre, -, hdisjoint⟩ := hnodup
  refine ⟨?_, fun template hmem hp => ?_, fun template hmem => ?_⟩
  · exact forM_view (V := fun part (s : Store) => s.space table.name part) h
      fun s c s' _ hc => hframe c s s' none hc (by simp)
  · obtain ⟨t, t', hc, hv, hv'⟩ :=
      forM_step (V := fun part (s : Store) => s.space table.name part)
        (p := fun template : IndexMeta × List Nat => some template.1.id) h
        (fun part s c s' _ hc hne => hframe c s s' part hc hne) hpre hmem
    rw [← hv, hv']
    exact hg template t t' hp (hexprs template (mem_append_left _ hmem)) hc
  · refine forM_view (V := fun part (s : Store) => s.space table.name part) h
      fun s c s' hc hstep => hframe c s s' _ hstep fun he => ?_
    exact hdisjoint (mem_map.mpr ⟨c, hc, rfl⟩) (mem_map.mpr ⟨template, hmem, he⟩)

/-- A loop over the indexes that writes to each once does to each what it says. -/
theorem forM_templates (ht : table.indexTemplates = .ok templates)
    (h : (templates.forM g) store = (.ok u, store')) :
    store'.space table.name none = store.space table.name none ∧
      ∀ index ∈ table.indexes, index.isPrimary = false →
        P index (store.space table.name (some index.id))
          (store'.space table.name (some index.id)) := by
  rw [← append_nil templates] at ht
  obtain ⟨hsame, hall, -⟩ := forM_templates_append hw hframe hg ht h
  refine ⟨hsame, fun index hi hp => ?_⟩
  rw [← (indexTemplates_spec ht).1, append_nil] at hi
  obtain ⟨template, hmem, rfl⟩ := mem_map.mp hi
  exact hall template hmem hp

end Loop

variable [DecimalLayout] {tuple : Tuple}

namespace Insert

theorem addIndex_adds (hp : template.1.isPrimary = false)
    (he : template.1.columnExprs table = .ok template.2) (hk : rowKey table.name id = .ok k)
    (h : addIndex table.name values id template store = (.ok u, store')) :
    table.Adds template.1 values k (store.space table.name (some template.1.id))
      (store'.space table.name (some template.1.id)) := by
  obtain ⟨ws, hw, h⟩ := liftM_bind_eq_ok.mp h
  rw [rewrite_eq he] at hw
  obtain ⟨a, v, ha, hn, hs, hu⟩ :=
    addIndex_space hp hk (write_eq_ok.mp h)
  exact ⟨ws, a, v, hw, ha, hn, hs, hu⟩

theorem addIndex_frame (h : addIndex tableName values id template store = (.ok u, store'))
    (hne : part ≠ some template.1.id) :
    store'.space tableName part = store.space tableName part := by
  obtain ⟨ws, -, h⟩ := liftM_bind_eq_ok.mp h
  exact (addIndex_writesAt (write_eq_ok.mp h)).frame hne

end Insert

namespace Delete

theorem delIndex_drops (hp : template.1.isPrimary = false)
    (he : template.1.columnExprs table = .ok template.2) (hk : rowKey table.name id = .ok k)
    (h : delIndex table.name values id template store = (.ok u, store')) :
    table.Drops template.1 values k (store.space table.name (some template.1.id))
      (store'.space table.name (some template.1.id)) := by
  obtain ⟨ws, hw, h⟩ := liftM_bind_eq_ok.mp h
  rw [rewrite_eq he] at hw
  obtain ⟨a, ha, hs⟩ := delIndex_space hp hk (write_eq_ok.mp h)
  exact ⟨ws, a, hw, ha, hs⟩

theorem delIndex_frame (h : delIndex tableName values id template store = (.ok u, store'))
    (hne : part ≠ some template.1.id) :
    store'.space tableName part = store.space tableName part := by
  obtain ⟨ws, -, h⟩ := liftM_bind_eq_ok.mp h
  exact (delIndex_writesAt (write_eq_ok.mp h)).frame hne

end Delete

/-- What writing a new row did. -/
structure RowInsert (table : TableCatalog) (values : List DataValue) (isOverwrite : Bool)
    (k bytes : Bytes) (store store' : Store) : Prop where
  free : isOverwrite = false → store.space table.name none k = none
  rows : store'.space table.name none = update (store.space table.name none) k (some bytes)
  indexes : ∀ index ∈ table.indexes, index.isPrimary = false →
    table.Adds index values k (store.space table.name (some index.id))
      (store'.space table.name (some index.id))

theorem appendTuple_space {isOverwrite : Bool} {serializers : List TupleValueSerializableImpl}
    (h : store.appendTuple tableName tuple serializers isOverwrite = .ok store') :
    ∃ id k bytes, tuple.pk = some id ∧ checkPrimaryKey id 0 = .ok () ∧
      rowKey tableName id = .ok k ∧ serializeTo tuple.values serializers = .ok bytes ∧
      (isOverwrite = false → store.space tableName none k = none) ∧
      store'.space tableName none = update (store.space tableName none) k (some bytes) ∧
      ∀ part, part ≠ none → store'.space tableName part = store.space tableName part := by
  obtain ⟨id, k, bytes, hid, hc, hk, hb, hfree, hs⟩ := appendTuple_eq_ok h
  obtain ⟨hrows, hframe⟩ := space_update none hs (isPrefix_rowKey hk)
  refine ⟨id, k, bytes, hid, hc, hk, hb, fun ho => ?_, hrows, hframe⟩
  rw [Store.space, Region.region_eq (isPrefix_rowKey hk), hfree ho]

theorem Insert.writeRow_spec {op : Insert} {ss : List TupleValueSerializableImpl}
    (hw : table.WellFormed) (ht : table.indexTemplates = .ok templates)
    (h : op.writeRow table.name ⟨table.columns, table.primaryKeyIndices, templates⟩ ss values
      store = (.ok u, store')) :
    ∃ id k bytes, primaryProjection table.primaryKeyIndices values = .ok id ∧
      checkPrimaryKey id 0 = .ok () ∧ rowKey table.name id = .ok k ∧
      serializeTo values ss = .ok bytes ∧
      RowInsert table values op.isOverwrite k bytes store store' := by
  obtain ⟨id, hid, h⟩ := liftM_bind_eq_ok.mp h
  obtain ⟨_, t, hloop, h⟩ := bind_eq_ok.mp h
  obtain ⟨id', k, bytes, hpk, hc, hk, hb, hfree, hrows, hframe⟩ :=
    appendTuple_space (write_eq_ok.mp h)
  cases hpk
  obtain ⟨hsame, hadds⟩ := forM_templates (P := fun index => table.Adds index values k) hw
    (fun _ _ _ _ hg hne => addIndex_frame hg hne)
    (fun _ _ _ hp he hg => addIndex_adds hp he hk hg) ht hloop
  refine ⟨id, k, bytes, hid, hc, hk, hb, ?_, ?_, fun index hi hp => ?_⟩
  · rwa [hsame] at hfree
  · rw [hrows, hsame]
  · rw [hframe _ (by simp)]
    exact hadds index hi hp

/-- What deleting a row did. -/
structure RowDelete (table : TableCatalog) (values : List DataValue) (k : Bytes)
    (store store' : Store) : Prop where
  rows : store'.space table.name none = update (store.space table.name none) k none
  indexes : ∀ index ∈ table.indexes, index.isPrimary = false →
    table.Drops index values k (store.space table.name (some index.id))
      (store'.space table.name (some index.id))

theorem Delete.deleteRow_spec {count count' : Nat} (hw : table.WellFormed)
    (ht : table.indexTemplates = .ok templates) (hpk : tuple.pk = some id)
    (hk : rowKey table.name id = .ok k)
    (h : deleteRow table.name templates count (.ok tuple) store = (.ok count', store')) :
    RowDelete table tuple.values k store store' := by
  obtain ⟨tuple', he, h⟩ := liftM_bind_eq_ok.mp h
  cases he
  rw [hpk] at h
  obtain ⟨_, t, hloop, h⟩ := bind_eq_ok.mp h
  obtain ⟨_, hr, -⟩ := bind_pure_eq_ok.mp h
  obtain ⟨hrows, hframe⟩ := removeTuple_space (write_eq_ok.mp hr) hk
  obtain ⟨hsame, hdrops⟩ := forM_templates (P := fun index => table.Drops index tuple.values k)
    hw (fun _ _ _ _ hg hne => delIndex_frame hg hne)
    (fun _ _ _ hp he hg => delIndex_drops hp he hk hg) ht hloop
  refine ⟨?_, fun index hi hp => ?_⟩
  · rw [hrows, hsame]
  · rw [hframe _ (by simp)]
    exact hdrops index hi hp

/-- An entry moves from the old values and key of a row to the new ones. -/
def TableCatalog.Moves (table : TableCatalog) (index : IndexMeta) (oldValues values : List DataValue)
    (k k' : Bytes) (entries entries' : Bytes → Option Bytes) : Prop :=
  ∃ between, table.Drops index oldValues k entries between ∧
    table.Adds index values k' between entries'

namespace Update

variable {exprs : List (ColumnId × ScalarExpression)}
  {old : List ((IndexMeta × List Nat) × List DataValue)} {oldValues : List DataValue}
  {oldPk newPk : DataValue} {k' : Bytes} {changed : Bool}
  {x : (IndexMeta × List Nat) × List DataValue}

/-- Why an UPDATE leaves an index alone. -/
def Skips (table : TableCatalog) (exprs : List (ColumnId × ScalarExpression)) (index : IndexMeta)
    (oldPk newPk : DataValue) (oldValues values : List DataValue) : Prop :=
  indexNeedsUpdate index exprs
      (updatesPrimaryKey ⟨table.columns, table.primaryKeyIndices, []⟩ exprs) = false ∨
    newPk.eq oldPk = true ∧ ∃ ws ws', index.rowValues table oldValues = .ok ws ∧
      index.rowValues table values = .ok ws' ∧ DataValue.eqList ws ws' = true

/-- What updating a row did. -/
structure RowUpdate (table : TableCatalog) (exprs : List (ColumnId × ScalarExpression))
    (oldPk newPk : DataValue) (oldValues values : List DataValue) (k k' bytes : Bytes)
    (store store' : Store) : Prop where
  same : newPk.eq oldPk = true → k' = k
  free : k' ≠ k → store.space table.name none k' = none
  rows : store'.space table.name none =
    update (update (store.space table.name none) k none) k' (some bytes)
  moves : ∀ index ∈ table.indexes, index.isPrimary = false →
    ¬ Skips table exprs index oldPk newPk oldValues values →
      table.Moves index oldValues values k k' (store.space table.name (some index.id))
        (store'.space table.name (some index.id))
  stays : ∀ index ∈ table.indexes, index.isPrimary = false →
    Skips table exprs index oldPk newPk oldValues values →
      store'.space table.name (some index.id) = store.space table.name (some index.id)

theorem rewriteIndex_spec (hp : x.1.1.isPrimary = false) (he : x.1.1.columnExprs table = .ok x.1.2)
    (hold : x.1.1.rowValues table oldValues = .ok x.2) (hk : rowKey table.name oldPk = .ok k)
    (hk' : rowKey table.name newPk = .ok k')
    (h : rewriteIndex table.name values oldPk newPk changed x store = (.ok u, store')) :
    ∃ ws', x.1.1.rowValues table values = .ok ws' ∧
      if !changed && DataValue.eqList x.2 ws' then store' = store
      else table.Moves x.1.1 oldValues values k k' (store.space table.name (some x.1.1.id))
        (store'.space table.name (some x.1.1.id)) := by
  obtain ⟨ws', hws', h⟩ := liftM_bind_eq_ok.mp h
  rw [rewrite_eq he] at hws'
  refine ⟨ws', hws', ?_⟩
  split at h
  · next hskip =>
    rw [if_pos hskip]
    exact (pure_eq_ok.mp h).2.symm
  · next hskip =>
    rw [if_neg hskip]
    obtain ⟨_, t, hd, ha⟩ := bind_eq_ok.mp h
    obtain ⟨a, henc, hs⟩ := delIndex_space hp hk (write_eq_ok.mp hd)
    obtain ⟨a', v, henc', hn, hs', hu⟩ :=
      addIndex_space hp hk' (write_eq_ok.mp ha)
    exact ⟨_, ⟨x.2, a, hold, henc, hs⟩, ws', a', v, hws', henc', hn, hs', hu⟩

theorem rewriteIndex_frame
    (h : rewriteIndex tableName values oldPk newPk changed x store = (.ok u, store'))
    (hne : part ≠ some x.1.1.id) : store'.space tableName part = store.space tableName part := by
  obtain ⟨ws', -, h⟩ := liftM_bind_eq_ok.mp h
  split at h
  · obtain ⟨-, rfl⟩ := pure_eq_ok.mp h
    rfl
  · obtain ⟨_, t, hd, ha⟩ := bind_eq_ok.mp h
    rw [(addIndex_writesAt (write_eq_ok.mp ha)).frame hne,
      (delIndex_writesAt (write_eq_ok.mp hd)).frame hne]

/-- The loop over the indexes moves the entry of each, or has a reason not to. -/
theorem forM_rewriteIndex (hw : table.WellFormed) (ht : table.indexTemplates = .ok templates)
    (hold : oldIndexValues ⟨table.columns, table.primaryKeyIndices, templates⟩ exprs oldValues =
      .ok old) (hk : rowKey table.name oldPk = .ok k) (hk' : rowKey table.name newPk = .ok k')
    (h : (old.forM (rewriteIndex table.name values oldPk newPk (!newPk.eq oldPk))) store =
      (.ok u, store')) :
    store'.space table.name none = store.space table.name none ∧
      ∀ index ∈ table.indexes, index.isPrimary = false →
        (¬ Skips table exprs index oldPk newPk oldValues values →
          table.Moves index oldValues values k k' (store.space table.name (some index.id))
            (store'.space table.name (some index.id))) ∧
        (Skips table exprs index oldPk newPk oldValues values →
          store'.space table.name (some index.id) = store.space table.name (some index.id)) := by
  obtain ⟨hmap, hexprs⟩ := indexTemplates_spec ht
  obtain ⟨hkept, hvals⟩ := mapM_rewrite_spec
    (fun template hmem => hexprs template (mem_filter.mp hmem).1) hold
  have hnodup : (old.map fun x => some x.1.1.id).Nodup := by
    have hsub := (filter_sublist (l := templates) (p := fun template =>
      indexNeedsUpdate template.1 exprs (updatesPrimaryKey
        ⟨table.columns, table.primaryKeyIndices, templates⟩ exprs))).map
          fun template => some template.1.id
    rw [← hkept, map_map] at hsub
    exact hsub.nodup (nodup_parts hw ht)
  refine ⟨?_, fun index hi hp => ?_⟩
  · exact forM_view (V := fun part (s : Store) => s.space table.name part) h
      fun s x s' _ hx => rewriteIndex_frame hx (by simp)
  · rw [← hmap] at hi
    obtain ⟨template, hmem, rfl⟩ := mem_map.mp hi
    by_cases hneeds : indexNeedsUpdate template.1 exprs (updatesPrimaryKey
        ⟨table.columns, table.primaryKeyIndices, templates⟩ exprs) = true
    · have hin : template ∈ old.map Prod.fst := by
        rw [hkept]
        exact mem_filter.mpr ⟨hmem, hneeds⟩
      obtain ⟨x, hx, rfl⟩ := mem_map.mp hin
      obtain ⟨t, t', hc, hv, hv'⟩ :=
        forM_step (V := fun part (s : Store) => s.space table.name part)
          (p := fun x : (IndexMeta × List Nat) × List DataValue => some x.1.1.id) h
          (fun part s c s' _ hc hne => rewriteIndex_frame hc hne) hnodup hx
      rw [← hv, hv']
      obtain ⟨ws', hws', hif⟩ := rewriteIndex_spec hp (hexprs x.1 hmem) (hvals x hx) hk hk' hc
      split at hif
      · next hskip =>
        rw [hif]
        simp only [Bool.not_not, Bool.and_eq_true] at hskip
        refine ⟨fun hno => absurd (Or.inr ⟨hskip.1, x.2, ws', hvals x hx, hws', hskip.2⟩) hno, ?_⟩
        exact fun _ => rfl
      · next hskip =>
        refine ⟨fun _ => hif, ?_⟩
        rintro (hno | ⟨he, vs, vs', hvs, hvs', heq⟩)
        · exact absurd (hneeds.symm.trans hno) (by simp)
        · rw [hvals x hx] at hvs
          cases hvs
          rw [hws'] at hvs'
          cases hvs'
          exact absurd (by simp [he, heq]) hskip
    · refine ⟨fun hno => absurd (Or.inl (Bool.eq_false_of_not_eq_true hneeds)) hno, fun _ => ?_⟩
      refine forM_view (V := fun part (s : Store) => s.space table.name part) h
        fun s x s' hx hc => rewriteIndex_frame hc fun he => hneeds ?_
      have hin : x.1 ∈ templates.filter fun template => indexNeedsUpdate template.1 exprs
          (updatesPrimaryKey ⟨table.columns, table.primaryKeyIndices, templates⟩ exprs) := by
        rw [← hkept]
        exact mem_map_of_mem hx
      obtain ⟨hxmem, hxneeds⟩ := mem_filter.mp hin
      rwa [inj_on_of_nodup_map (nodup_parts hw ht) hmem hxmem he]

theorem rewriteRow_spec {op : Update} {ss : List TupleValueSerializableImpl} (hw : table.WellFormed)
    (ht : table.indexTemplates = .ok templates) (hk : rowKey table.name oldPk = .ok k)
    (h : op.rewriteRow table.name ⟨table.columns, table.primaryKeyIndices, templates⟩ ss exprs
      oldPk oldValues store = (.ok u, store')) :
    ∃ values newPk k' bytes, assign exprs 0 op.inputSchema oldValues = .ok values ∧
      primaryProjection table.primaryKeyIndices values = .ok newPk ∧
      checkPrimaryKey newPk 0 = .ok () ∧ rowKey table.name newPk = .ok k' ∧
      serializeTo values ss = .ok bytes ∧
      RowUpdate table exprs oldPk newPk oldValues values k k' bytes store store' := by
  obtain ⟨old, hold, h⟩ := liftM_bind_eq_ok.mp h
  obtain ⟨values, hvalues, h⟩ := liftM_bind_eq_ok.mp h
  obtain ⟨newPk, hpk, h⟩ := liftM_bind_eq_ok.mp h
  obtain ⟨_, t, hremove, h⟩ := bind_eq_ok.mp h
  obtain ⟨_, t', hloop, h⟩ := bind_eq_ok.mp h
  obtain ⟨_, k', bytes, hid, hc, hk', hb, hfree, hrows, hframe⟩ :=
    appendTuple_space (write_eq_ok.mp h)
  cases hid
  obtain ⟨hsame, hindexes⟩ := forM_rewriteIndex hw ht hold hk hk' hloop
  have hremove := write_eq_ok.mp hremove
  refine ⟨values, newPk, k', bytes, hvalues, hpk, hc, hk', hb, ?_⟩
  have heq : newPk.eq oldPk = true → k' = k := by
    intro he
    rw [rowKey_congr hc he, hk] at hk'
    exact (Except.ok.inj hk').symm
  rw [hsame] at hfree hrows
  by_cases he : newPk.eq oldPk = true
  · rw [he] at hremove
    cases hremove
    refine ⟨heq, fun hne => absurd (heq he) hne, ?_, fun index hi hp => ?_,
      fun index hi hp => ?_⟩
    · rw [hrows, heq he, update_idem]
    · rw [hframe _ (by simp)]
      exact (hindexes index hi hp).1
    · rw [hframe _ (by simp)]
      exact (hindexes index hi hp).2
  · rw [Bool.eq_false_of_not_eq_true he] at hremove hfree
    obtain ⟨hgone, hother⟩ := removeTuple_space hremove hk
    rw [hgone] at hfree hrows
    refine ⟨heq, fun hne => ?_, hrows, fun index hi hp => ?_, fun index hi hp => ?_⟩
    · have hnone := hfree rfl
      rwa [update_of_ne hne] at hnone
    · rw [hframe _ (by simp), ← hother _ (by simp)]
      exact (hindexes index hi hp).1
    · rw [hframe _ (by simp), ← hother _ (by simp)]
      exact (hindexes index hi hp).2

end Update

end KiteSQL
