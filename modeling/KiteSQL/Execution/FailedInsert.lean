import KiteSQL.Execution.Copy
import KiteSQL.Execution.Overwrite
import KiteSQL.Storage.Refusals

/-! What an INSERT that is refused as a duplicate leaves in the store. -/
namespace KiteSQL

open TableCodec Function IndexedRows TableCatalog Stateful List

section Refused

variable [DecimalLayout] {op : Insert} {table : TableCatalog} {index : IndexMeta}
  {store store' : Store} {templates pre post : List (IndexMeta × List Nat)} {item : Result Tuple}
  {input : List (Result Tuple)} {values : List DataValue} {id : DataValue} {n m : Nat} {e : Fault}
  {ss : List TupleValueSerializableImpl} {k : Bytes}

/-- A unique index has the entry of the row already, with the id of another one. -/
def TableCatalog.Taken (table : TableCatalog) (index : IndexMeta) (values : List DataValue)
    (entries : Bytes → Option Bytes) : Prop :=
  index.ty = .unique ∧ ∃ id k a value b,
    Tuple.primaryProjection table.primaryKeyIndices values = .ok id ∧
    rowKey table.name id = .ok k ∧ id.encodeReferenceValue = .ok value ∧
    table.indexKeyOf index values = .ok a ∧ entries (index.entry table a k) = some b ∧ b ≠ value

namespace Insert

/-- An index that takes the entry of a row has it for no other row. -/
theorem addIndex_not_taken {template : IndexMeta × List Nat}
    (hid : Tuple.primaryProjection table.primaryKeyIndices values = .ok id)
    (he : template.1.columnExprs table = .ok template.2)
    (h : addIndex table.name values id template store = (.ok ⟨⟩, store')) :
    ¬ table.Taken template.1 values (store.space table.name (some template.1.id)) := by
  rintro ⟨hty, id', k, a, v, b, hid', hk, hv, ha, hb, hne⟩
  rw [hid] at hid'
  cases hid'
  obtain ⟨ws, hws, h⟩ := liftM_bind_eq_ok.mp h
  rw [rewrite_eq he] at hws
  obtain ⟨key, value, hw, -, hu⟩ := addIndex_eq_ok (by simp [hty]) (write_eq_ok.mp h)
  obtain ⟨a', ha', rfl, hv'⟩ := withIndex_key hw hk
  rw [indexKeyOf_eq_ok.mpr ⟨ws, hws, ha'⟩] at ha
  rw [hv'] at hv
  cases ha
  cases hv
  exact hne (hu hty b (Region.region_eq_some.mp hb).2)

/-- A row that is refused as a duplicate got its entries in the indexes before the one that
refused it. -/
theorem writeRow_refused (ht : table.indexTemplates = .ok templates) (hdup : e.isDuplicate = true)
    (h : op.writeRow table.name ⟨table.columns, table.primaryKeyIndices, templates⟩ ss values
      store = (.error e, store')) :
    ∃ id k pre post, Tuple.primaryProjection table.primaryKeyIndices values = .ok id ∧
      rowKey table.name id = .ok k ∧ templates = pre ++ post ∧
      (pre.forM (addIndex table.name values id)) store = (.ok ⟨⟩, store') ∧
      (e = .error .duplicatePrimaryKey ∧ post = [] ∧
          (∃ r, store'.space table.name none k = some r) ∨
        e = .error .duplicateUniqueValue ∧ ∃ template rest, post = template :: rest ∧
          table.Taken template.1 values (store'.space table.name (some template.1.id))) := by
  rcases bind_eq_error.mp h with h | ⟨id, s, hl, h⟩
  · rw [noDuplicate_primaryProjection _ _ _ (liftM_eq.mp h).1] at hdup
    cases hdup
  obtain ⟨hid, rfl⟩ := liftM_eq.mp hl
  rcases bind_eq_error.mp h with h | ⟨_, t, hloop, h⟩
  · obtain ⟨pre, template, post, t, hsplit, hpre, hstep⟩ := forM_eq_error h
    rcases bind_eq_error.mp hstep with hstep | ⟨ws, s, hl, hstep⟩
    · rw [noDuplicate_mapM (noDuplicate_valueAt values) _ _ (liftM_eq.mp hstep).1] at hdup
      cases hdup
    obtain ⟨hws, rfl⟩ := liftM_eq.mp hl
    obtain ⟨hadd, rfl⟩ := write_eq_error.mp hstep
    obtain ⟨hty, he, ⟨k, hk⟩, key, value, b, hw, hb, hne⟩ := addIndex_duplicate hadd hdup
    obtain ⟨a, ha, rfl, hv⟩ := withIndex_key hw hk
    have hmem : template ∈ templates := by simp [show templates = _ from hsplit]
    rw [rewrite_eq ((indexTemplates_spec ht).2 template hmem)] at hws
    refine ⟨id, k, pre, template :: post, hid, hk, hsplit, hpre, Or.inr ⟨he, template, post, rfl,
      hty, id, k, a, value, b, hid, hk, hv, indexKeyOf_eq_ok.mpr ⟨ws, hws, ha⟩, ?_, hne⟩⟩
    exact (Region.region_eq (isPrefix_entry template.1 table a k)).trans hb
  · obtain ⟨happend, rfl⟩ := write_eq_error.mp h
    obtain ⟨he, id', k, r, hpk, hk, hr⟩ := appendTuple_duplicate happend hdup
    cases hpk
    exact ⟨id, k, templates, [], hid, hk, (append_nil _).symm, hloop,
      Or.inl ⟨he, rfl, r, hr⟩⟩

/-- An entry that names a row which has another one. -/
def HasStale (table : TableCatalog) (index : IndexMeta) (store : Store) : Prop :=
  ∃ k r e v, table.Owns index k e ∧ Stale (table.scheme index) (store.space table.name none)
    (store.space table.name (some index.id)) k r e v

/-- An entry that is added to an index does not repair a stale one. -/
theorem HasStale.not_exact (h : HasStale table index store) (hp : index.isPrimary = false)
    (hrows : store'.space table.name none = store.space table.name none)
    (hent : store'.space table.name (some index.id) = store.space table.name (some index.id) ∨
      table.Adds index values k (store.space table.name (some index.id))
      (store'.space table.name (some index.id))) :
    ¬ Exact (table.scheme index) (store'.space table.name none)
      (store'.space table.name (some index.id)) := by
  obtain ⟨k₀, r₀, e₀, v₀, howns₀, hstale⟩ := h
  intro hexact
  rcases hent with hsame | ⟨ws, a, v, -, -, hn, hent, hu⟩
  · rw [hrows, hsame] at hexact
    exact hstale.not_exact hexact
  rw [hrows, hent] at hexact
  by_cases he : e₀ = index.entry table a k
  · obtain ⟨k', r, hn', hr, hentry⟩ := hexact.points _ v (update_self ..)
    rw [hn] at hn'
    cases hn'
    have hkk : k₀ = k := by
      by_contra hne
      exact howns₀.ne_entry (owns_of_entryKey (toOption_eq_some.mp hentry)) hp hstale.names hn hne
        hstale.stored hu he
    subst hkk
    rw [hstale.row] at hr
    cases hr
    exact hstale.differs (he ▸ hentry)
  · refine Stale.not_exact ⟨hstale.row, ?_, hstale.names, hstale.differs⟩ hexact
    rw [update_of_ne he, hstale.stored]

variable [Conversions]

/-- The row that an input item becomes. -/
def rowOf (op : Insert) (table : TableCatalog) (item : Result Tuple) :
    Result (List DataValue) := do
  let tuple ← item
  op.buildRow table.columns tuple.values

/-- The key and the bytes of the row that an input item becomes. -/
def Puts (op : Insert) (table : TableCatalog) (item : Result Tuple) (row : Bytes × Bytes) : Prop :=
  ∃ values ss, op.rowOf table item = .ok values ∧ table.keyOf values = .ok row.1 ∧
    table.serializers = .ok ss ∧ Tuple.serializeTo values ss = .ok row.2

/-- A row that is stored under a key, or that the statement put there before. -/
def Present (op : Insert) (table : TableCatalog) (store : Store) (before : List (Result Tuple))
    (k r : Bytes) : Prop :=
  store.space table.name none k = some r ∨ ∃ item ∈ before, op.Puts table item (k, r)

/-- The row of an input item loses no trailing spaces in the columns of an index. -/
def KeepsTexts (op : Insert) (table : TableCatalog) (index : IndexMeta) (item : Result Tuple) :
    Prop :=
  ∀ values ws types, op.rowOf table item = .ok values → index.rowValues table values = .ok ws →
    index.rowTypes table = .ok types → List.Forall₂ DataValue.keepsText ws types

theorem insertRow_refused (hrow : op.rowOf table item ≠ .error e)
    (h : op.insertRow table.name ⟨table.columns, table.primaryKeyIndices, templates⟩ ss n item
      store = (.error e, store')) :
    ∃ values, op.rowOf table item = .ok values ∧
      op.writeRow table.name ⟨table.columns, table.primaryKeyIndices, templates⟩ ss values store =
        (.error e, store') := by
  rcases bind_eq_error.mp h with h | ⟨tuple, s, hl, h⟩
  · rw [rowOf, (liftM_eq.mp h).1] at hrow
    exact absurd rfl hrow
  obtain ⟨rfl, rfl⟩ := liftM_eq.mp hl
  rcases bind_eq_error.mp h with h | ⟨values, s, hl, h⟩
  · exact absurd (liftM_eq.mp h).1 hrow
  obtain ⟨hvalues, rfl⟩ := liftM_eq.mp hl
  refine ⟨values, hvalues, ?_⟩
  rcases bind_eq_error.mp h with h | ⟨_, t, -, h⟩
  · exact h
  · exact absurd h pure_ne_error

/-- A statement that is refused as a duplicate was refused for one of its rows. -/
theorem nextTuple_refused (hdup : e.isDuplicate = true)
    (hrows : ∀ item ∈ input, op.rowOf table item ≠ .error e)
    (h : op.nextTuple (some table) input store = (.error e, store')) :
    ∃ templates ss before item after values n t, table.indexTemplates = .ok templates ∧
      table.serializers = .ok ss ∧ input = before ++ item :: after ∧
      op.insertTable table before store = (.ok n, t) ∧
      (before.foldlM (op.insertRow table.name
        ⟨table.columns, table.primaryKeyIndices, templates⟩ ss) 0) store = (.ok n, t) ∧
      op.rowOf table item = .ok values ∧
      op.writeRow table.name ⟨table.columns, table.primaryKeyIndices, templates⟩ ss values t =
        (.error e, store') := by
  rcases bind_eq_error.mp h with h | ⟨_, t, -, h⟩
  swap
  · exact absurd h pure_ne_error
  rcases bind_eq_error.mp h with h | ⟨snapshot, s, hl, h⟩
  · rw [noDuplicate_dmlSnapshot _ _ (liftM_eq.mp h).1] at hdup
    cases hdup
  obtain ⟨hsnap, rfl⟩ := liftM_eq.mp hl
  obtain ⟨templates, ht, hdml⟩ := Result.bind_eq_ok.mp hsnap
  cases hdml
  split at h
  · obtain ⟨he, -⟩ := liftM_eq.mp h
    cases he
    cases hdup
  rename_i hkeyed
  rcases bind_eq_error.mp h with h | ⟨ss, s, hl, h⟩
  · rw [noDuplicate_serializers _ _ (liftM_eq.mp h).1] at hdup
    cases hdup
  obtain ⟨hs, rfl⟩ := liftM_eq.mp hl
  obtain ⟨before, item, after, n, t, rfl, hbefore, hitem⟩ := foldlM_eq_error h
  obtain ⟨values, hvalues, hwrite⟩ := insertRow_refused (hrows item (by simp)) hitem
  refine ⟨templates, ss, before, item, after, values, n, t, ht, hs, rfl, ?_, hbefore, hvalues,
    hwrite⟩
  rw [insertTable, bind_of_ok (liftM_eq.mpr ⟨hsnap, rfl⟩), if_neg hkeyed,
    bind_of_ok (liftM_eq.mpr ⟨hs, rfl⟩)]
  exact hbefore

theorem Puts.eq {row row' : Bytes × Bytes} (h : op.Puts table item row)
    (h' : op.Puts table item row') : row = row' := by
  obtain ⟨values, ss, hv, hk, hs, hb⟩ := h
  obtain ⟨values', ss', hv', hk', hs', hb'⟩ := h'
  rw [hv] at hv'
  rw [hs] at hs'
  cases hv'
  cases hs'
  rw [hk] at hk'
  rw [hb] at hb'
  exact Prod.ext (Except.ok.inj hk') (Except.ok.inj hb')

/-- The rows of a successful INSERT are the rows before and one for each item. -/
theorem foldlM_rows (hw : table.WellFormed) (ht : table.indexTemplates = .ok templates)
    (hs : table.serializers = .ok ss) (ho : op.isOverwrite = false)
    (h : (input.foldlM (op.insertRow table.name
      ⟨table.columns, table.primaryKeyIndices, templates⟩ ss) n) store = (.ok m, store')) :
    ∀ k r, store'.space table.name none k = some r ↔ op.Present table store input k r := by
  obtain ⟨rows, hall, -, -, hiff⟩ :=
    foldlM_inserts (V := fun s : Store => s.space table.name none)
      (W := op.Puts table) h fun item hmem n s m t hstep => by
        obtain ⟨tuple, values, id, k, bytes, rfl, hvalues, hid, hk, hb, hrow⟩ :=
          insertRow_eq_ok hw ht hstep
        refine ⟨k, bytes, ⟨values, ss, hvalues, ?_, hs, hb⟩, hrow.free ho, hrow.rows⟩
        rw [TableCatalog.keyOf, hid]
        exact hk
  intro k r
  rw [hiff, Present]
  refine or_congr_right ⟨fun hmem => Traverse.exists_of_mem_forall₂ hall hmem, ?_⟩
  rintro ⟨item, hmem, hputs⟩
  obtain ⟨row, hrow, hputs'⟩ := Traverse.exists_of_mem_forall₂ hall.flip hmem
  rwa [hputs.eq hputs']

/-- An INSERT leaves an index exact unless a row loses trailing spaces in it, which leaves an entry
that the row does not have. -/
theorem foldlM_exact_or_stale (hw : table.WellFormed)
    (ht : table.indexTemplates = .ok templates) (hs : table.serializers = .ok ss)
    (ho : op.isOverwrite = false) (hshort : ∀ item ∈ input, op.Short table item)
    (hi : index ∈ table.indexes) (hp : index.isPrimary = false)
    (he : Exact (table.scheme index) (store.space table.name none)
      (store.space table.name (some index.id)))
    (h : (input.foldlM (op.insertRow table.name
      ⟨table.columns, table.primaryKeyIndices, templates⟩ ss) n) store = (.ok m, store')) :
    (∀ item ∈ input, op.KeepsTexts table index item) ∧
        Exact (table.scheme index) (store'.space table.name none)
          (store'.space table.name (some index.id)) ∨
      (∃ item ∈ input, ¬ op.KeepsTexts table index item) ∧ HasStale table index store' := by
  have hrun := foldlM_dichotomy
    (I := fun rest s => Exact (table.scheme index) (s.space table.name none)
      (s.space table.name (some index.id)) ∧ ∀ item ∈ rest, op.Short table item)
    (F := fun rest s => HasStale table index s ∧ ∀ item ∈ rest, op.Short table item)
    (C := op.KeepsTexts table index) h ?_ ?_ ?_ ⟨he, hshort⟩
  · rcases hrun with ⟨hall, hexact, -⟩ | ⟨hbad, hstale, -⟩
    · exact Or.inl ⟨hall, hexact⟩
    · exact Or.inr ⟨hbad, hstale⟩
  · rintro item rest n s m t ⟨hexact, hsh⟩ hstep hkeeps
    rw [forall_mem_cons] at hsh
    obtain ⟨tuple, values, id, k, bytes, rfl, hvalues, hid, hk, hst, hrow⟩ :=
      insertRow_spec hw ht hs hsh.1 hstep
    exact ⟨hrow.exact_index hexact hi hp hst (hrow.free ho) fun ws types hws htypes =>
      hkeeps values ws types hvalues hws htypes, hsh.2⟩
  · rintro item rest n s m t ⟨hexact, hsh⟩ hstep hloses
    rw [forall_mem_cons] at hsh
    obtain ⟨tuple, values, id, k, bytes, rfl, hvalues, hid, hk, hst, hrow⟩ :=
      insertRow_spec hw ht hs hsh.1 hstep
    obtain ⟨ws, a, v, hws, ha, hn, hent, -⟩ := hrow.indexes index hi hp
    obtain ⟨types, htypes, howns, hiff⟩ := hst.entry hws ha k
    refine ⟨⟨k, bytes, _, v, howns, by rw [hrow.rows, update_self], by rw [hent, update_self], hn,
      fun hentry => hloses fun values' ws' types' hvalues' hws' htypes' => ?_⟩, hsh.2⟩
    have hsame := hvalues.symm.trans hvalues'
    cases hsame
    rw [hws] at hws'
    rw [htypes] at htypes'
    cases hws'
    cases htypes'
    exact hiff.mp hentry
  · rintro item rest n s m t ⟨⟨k₀, r₀, e₀, v₀, howns₀, hstale⟩, hsh⟩ hstep
    rw [forall_mem_cons] at hsh
    obtain ⟨tuple, values, id, k, bytes, rfl, hvalues, hid, hk, hst, hrow⟩ :=
      insertRow_spec hw ht hs hsh.1 hstep
    obtain ⟨ws, a, v, hws, ha, hn, hent, hu⟩ := hrow.indexes index hi hp
    obtain ⟨types, htypes, howns, -⟩ := hst.entry hws ha k
    have hne : k₀ ≠ k := by
      rintro rfl
      have hfree := hrow.free ho
      rw [hstale.row] at hfree
      cases hfree
    have hne' := howns₀.ne_entry howns hp hstale.names hn hne hstale.stored hu
    refine ⟨⟨k₀, r₀, e₀, v₀, howns₀, ?_, ?_, hstale.names, hstale.differs⟩, hsh.2⟩
    · rw [hrow.rows, update_of_ne hne, hstale.row]
    · rw [hent, update_of_ne hne', hstale.stored]

/-- What a refused row means for one index. -/
theorem refused_index_iff {before : List (Result Tuple)} {t : Store} {written : List IndexMeta}
    (hp : index.isPrimary = false) (hsame : store'.space table.name none = t.space table.name none)
    (hpresent : ∀ k r, t.space table.name none k = some r ↔ op.Present table store before k r)
    (hparts : index ∈ written ∧ table.Adds index values k (t.space table.name (some index.id))
      (store'.space table.name (some index.id)) ∨
      index ∉ written ∧
      store'.space table.name (some index.id) = t.space table.name (some index.id))
    (hbefore : (∀ item ∈ before, op.KeepsTexts table index item) ∧
      Exact (table.scheme index) (t.space table.name none)
      (t.space table.name (some index.id)) ∨
      (∃ item ∈ before, ¬ op.KeepsTexts table index item) ∧ HasStale table index t) :
    Exact (table.scheme index) (store'.space table.name none)
        (store'.space table.name (some index.id)) ↔
      (∀ item ∈ before, op.KeepsTexts table index item) ∧
      (index ∈ written → ∃ r old, op.Present table store before k r ∧
        table.readRow r = .ok old ∧
        table.indexKeyOf index old = table.indexKeyOf index values) := by
  rcases hbefore with ⟨hkeeps, he⟩ | ⟨⟨bad, hmem, hloses⟩, hstale⟩
  · rcases hparts with ⟨hwritten, ws, a, v, hws, ha, hn, hent, -⟩ | ⟨hno, hent⟩
    · have hkey := indexKeyOf_eq_ok.mpr ⟨ws, hws, ha⟩
      rw [hsame, hent, he.add_entry_iff hn]
      constructor
      · rintro ⟨r, hr, hentry⟩
        obtain ⟨old, hread, hold⟩ := scheme_entry_iff.mp hentry
        exact ⟨hkeeps, fun _ => ⟨r, old, (hpresent k r).mp hr, hread, hold.trans hkey.symm⟩⟩
      · rintro ⟨-, hall⟩
        obtain ⟨r, old, hr, hread, hold⟩ := hall hwritten
        exact ⟨r, (hpresent k r).mpr hr, scheme_entry_iff.mpr ⟨old, hread, hold.trans hkey⟩⟩
    · rw [hsame, hent]
      exact ⟨fun _ => ⟨hkeeps, fun hin => absurd hin hno⟩, fun _ => he⟩
  · have hent := hparts.symm.imp And.right And.right
    exact ⟨fun he => absurd he (hstale.not_exact hp hsame hent),
      fun hall => absurd (hall.1 bad hmem) hloses⟩

/-- An INSERT that is refused as a duplicate has inserted the rows before one whose key is there, or
whose entry the first unique index that has it has for another row. Then the indexes are exact
when, and only when, no row before lost trailing spaces in an index column and the row that has the
key of the refused one has its values in all the indexes before the one that refused it. -/
theorem nextTuple_refused_exact_iff (hw : table.WellFormed) (ho : op.isOverwrite = false)
    (hshort : ∀ item ∈ input, op.Short table item) (hexact : table.IndexesExact store)
    (hdup : e.isDuplicate = true) (hrows : ∀ item ∈ input, op.rowOf table item ≠ .error e)
    (h : op.nextTuple (some table) input store = (.error e, store')) :
    ∃ before item after n t values k written rest, input = before ++ item :: after ∧
      op.insertTable table before store = (.ok n, t) ∧ op.rowOf table item = .ok values ∧
      table.keyOf values = .ok k ∧ table.indexes = written ++ rest ∧
      (∀ index ∈ written, ¬ table.Taken index values (t.space table.name (some index.id))) ∧
      (e = .error .duplicatePrimaryKey ∧ rest = [] ∧
          (∃ r, op.Present table store before k r) ∨
        e = .error .duplicateUniqueValue ∧ ∃ index tail, rest = index :: tail ∧
          table.Taken index values (t.space table.name (some index.id))) ∧
      (table.IndexesExact store' ↔ ∀ index ∈ table.indexes, index.isPrimary = false →
        (∀ item ∈ before, op.KeepsTexts table index item) ∧
        (index ∈ written → ∃ r old, op.Present table store before k r ∧
          table.readRow r = .ok old ∧
          table.indexKeyOf index old = table.indexKeyOf index values)) := by
  obtain ⟨templates, ss, before, item, after, values, n, t, ht, hs, rfl, hinsert, hbefore, hvalues,
    hwrite⟩ := nextTuple_refused hdup hrows h
  obtain ⟨id, k, pre, post, hid, hk, rfl, hpre, hcause⟩ := writeRow_refused ht hdup hwrite
  have hpresent := foldlM_rows hw ht hs ho hbefore
  obtain ⟨hsame, hadds, hrest⟩ := forM_templates_append
    (P := fun index old new => table.Adds index values k old new ∧ ¬ table.Taken index values old)
    hw (fun _ _ _ _ hg hne => addIndex_frame hg hne)
    (fun _ _ _ hp he hg => ⟨addIndex_adds hp he hk hg, addIndex_not_taken hid he hg⟩) ht hpre
  have hindexes := (indexTemplates_spec ht).1
  rw [List.map_append] at hindexes
  refine ⟨before, item, after, n, t, values, k, pre.map Prod.fst, post.map Prod.fst, rfl, hinsert,
    hvalues, ?_, hindexes.symm, ?_, ?_, forall₃_congr fun index hi hp => ?_⟩
  · rw [TableCatalog.keyOf, hid]
    exact hk
  · intro index hi htaken
    obtain ⟨template, hmem, rfl⟩ := List.mem_map.mp hi
    exact (hadds template hmem (by simp [IndexMeta.isPrimary, htaken.1])).2 htaken
  · rcases hcause with ⟨he, rfl, r, hr⟩ | ⟨he, template, tail, rfl, htaken⟩
    · exact Or.inl ⟨he, rfl, r, (hpresent k r).mp (hsame ▸ hr)⟩
    · rw [hrest template mem_cons_self] at htaken
      exact Or.inr ⟨he, template.1, tail.map Prod.fst, rfl, htaken⟩
  have hparts : index ∈ pre.map Prod.fst ∧ table.Adds index values k
        (t.space table.name (some index.id)) (store'.space table.name (some index.id)) ∨
      index ∉ pre.map Prod.fst ∧
        store'.space table.name (some index.id) = t.space table.name (some index.id) := by
    have hnodup := hw.indexIds.of_map
    rw [← hindexes] at hi hnodup
    rcases List.mem_append.mp hi with hin | hin
    · obtain ⟨template, hmem, rfl⟩ := List.mem_map.mp hin
      exact Or.inl ⟨hin, (hadds template hmem hp).1⟩
    · obtain ⟨template, hmem, rfl⟩ := List.mem_map.mp hin
      exact Or.inr ⟨fun hpre => (List.nodup_append'.mp hnodup).2.2 hpre hin, hrest template hmem⟩
  exact refused_index_iff hp hsame hpresent hparts (foldlM_exact_or_stale hw ht hs ho
    (fun item hmem => hshort item (by simp [hmem])) hi hp (hexact index hi hp) hbefore)

end Insert

end Refused

namespace Insert

/-- `INSERT INTO t` by position into the table of integer pairs. -/
def pairsInsert : Insert := ⟨(integerPairs true).columns, false, false⟩

def pairRow (a b : Int32) : List (Result Tuple) := [.ok ⟨none, [.int32 a, .int32 b]⟩]

/-- The table with the row `(1, 2)`. -/
def onePair : Store :=
  (@nextTuple .refusing .flagsFirst pairsInsert (some (integerPairs true)) (pairRow 1 2) ∅).2

theorem integerPairs_wellFormed : (integerPairs true).WellFormed := by
  constructor <;> decide

theorem short_pairRow (a b : Int32) :
    ∀ item ∈ pairRow a b, @Short .refusing pairsInsert (integerPairs true) item := by
  intro item hmem tuple values hitem hvalues
  rw [mem_singleton.mp hmem] at hitem
  cases hitem
  cases hvalues
  simp [DataValue.writtenLen]

theorem onePair_exact : @TableCatalog.IndexesExact .flagsFirst (integerPairs true) onePair := by
  let _ := DecimalLayout.flagsFirst
  let _ := Conversions.refusing
  have hrun : pairsInsert.insertTable (integerPairs true) (pairRow 1 2) ∅ = (.ok 1, onePair) := rfl
  refine (insertTable_sound_iff integerPairs_wellFormed ?_ rfl (short_pairRow 1 2)
    (sound_empty _) hrun).mpr ?_ |>.exact
  · intro index hi hp types ht len unit
    rcases mem_cons.mp hi with rfl | hi
    · cases hp
    · cases mem_singleton.mp hi
      cases ht
      simp [columnTypes, integerPairs, ColumnCatalog.datatype]
  · intro item hmem tuple values hitem hvalues i hi v hv
    rw [mem_singleton.mp hmem] at hitem
    cases hitem
    cases hvalues
    obtain rfl : i = 0 := by simpa [primaryKeyIndices, integerPairs] using hi
    cases hv
    trivial

theorem refused_same_row :
    ∃ store', @nextTuple .refusing .flagsFirst pairsInsert (some (integerPairs true))
        (pairRow 1 2) onePair = (.error (.error .duplicatePrimaryKey), store') ∧
      @TableCatalog.IndexesExact .flagsFirst (integerPairs true) store' := by
  let _ := DecimalLayout.flagsFirst
  let _ := Conversions.refusing
  have hrun : pairsInsert.nextTuple (some (integerPairs true)) (pairRow 1 2) onePair =
      (.error (.error .duplicatePrimaryKey),
        (pairsInsert.nextTuple (some (integerPairs true)) (pairRow 1 2) onePair).2) := rfl
  refine ⟨_, hrun, ?_⟩
  obtain ⟨before, item, after, -, -, values, k, written, rest, hinput, -, hrow, hk, -, -, -, hiff⟩ :=
    nextTuple_refused_exact_iff integerPairs_wellFormed rfl (short_pairRow 1 2) onePair_exact rfl
      (fun item hmem => by
        rw [List.mem_singleton.mp hmem]
        nofun) hrun
  obtain ⟨rfl, hrest⟩ | ⟨_, rfl, hrest⟩ := List.append_eq_cons_iff.mp hinput.symm
  swap
  · cases (List.append_eq_nil_iff.mp hrest.symm).2
  cases hrest
  cases hrow
  cases hk
  refine hiff.mpr fun index hi hp => ⟨nofun, fun _ => ?_⟩
  rcases List.mem_cons.mp hi with rfl | hi
  · cases hp
  · cases List.mem_singleton.mp hi
    exact ⟨_, _, Or.inl rfl, rfl, rfl⟩

/-- The refused row `(1, 3)` leaves its entry in the index over the second column. -/
theorem refused_other_row :
    ∃ store', @TableCatalog.IndexesExact .flagsFirst (integerPairs true) onePair ∧
      @nextTuple .refusing .flagsFirst pairsInsert (some (integerPairs true))
        (pairRow 1 3) onePair = (.error (.error .duplicatePrimaryKey), store') ∧
      ¬ @TableCatalog.IndexesExact .flagsFirst (integerPairs true) store' := by
  let _ := DecimalLayout.flagsFirst
  let _ := Conversions.refusing
  refine ⟨_, onePair_exact, rfl, fun hexact => ?_⟩
  have he := hexact _ (List.mem_cons_of_mem _ (List.mem_singleton_self _)) rfl
  obtain ⟨k, hk⟩ : ∃ k, rowKey "t" (.int32 1) = .ok k := ⟨_, rfl⟩
  obtain ⟨a, ha⟩ : ∃ a, DataValue.memcomparableEncodeAll [.int32 3] = .ok a := ⟨_, rfl⟩
  obtain ⟨k', r, hn, hr, hentry⟩ := he.points
    (IndexMeta.entry ⟨1, [2], .integer, .integer, "i", .unique⟩ (integerPairs true) a k) _
    (by cases hk; cases ha; rfl)
  cases hn
  cases hr
  obtain ⟨old, hold, hkey⟩ := scheme_entry_iff.mp hentry
  cases hold
  rw [← ha] at hkey
  exact absurd (Except.ok.inj hkey) (by decide)

end Insert

end KiteSQL
