import KiteSQL.Storage.KeyFamilies

/-! Which names are taken, and how creating and dropping tables and views changes that. -/
namespace KiteSQL

open TableCodec Function Stateful Store List TableCatalog CatalogCodec CodecType Option

/-- The hashes of the tables and views there are and of the names that are taken. -/
structure Directory where
  tables : Set Bytes
  views : Set Bytes
  reserved : Set Bytes

/-- Names are taken by the tables and views there are, and by one of the two. -/
structure Directory.Exact (d : Directory) : Prop where
  reserved : d.reserved = d.tables ∪ d.views
  disjoint : ∀ hash ∈ d.tables, hash ∉ d.views

namespace Store

def hashes (store : Store) (ty : CodecType) : Set Bytes :=
  {hash | (store.contents (writeKeyPrefix ty hash)).isSome = true}

def directory (store : Store) : Directory :=
  ⟨store.hashes .root, store.hashes .view, store.hashes .hash⟩

end Store

variable {tableName name : String} {store store' s t : Store} {key k bytes hash hash' : Bytes}
  {ty ty' : CodecType}

theorem exists_text (h : ty.text.isSome = true) :
    ∃ text, ty.text = some text ∧ text ∈ ["Root", "View", "Hash"] := by
  rcases tag_or_text ty with ⟨tag, ht⟩ | htext
  · cases ty <;> cases ht <;> cases h
  · exact htext

theorem writeKeyPrefix_inj (h : ty.text.isSome = true) (h' : ty'.text.isSome = true) :
    writeKeyPrefix ty hash = writeKeyPrefix ty' hash' ↔ ty = ty' ∧ hash = hash' := by
  obtain ⟨text, ht, hmem⟩ := exists_text h
  obtain ⟨text', ht', hmem'⟩ := exists_text h'
  constructor
  · intro he
    rw [writeKeyPrefix_text ht, writeKeyPrefix_text ht'] at he
    obtain ⟨htext, hh⟩ := append_inj he (by rw [length_text hmem, length_text hmem'])
    rw [asBytes_inj] at htext
    subst htext
    exact ⟨text_injective ht ht', (cons.inj hh).2⟩
  · rintro ⟨rfl, rfl⟩
    rfl

/-- Keys of a table are no names. -/
theorem ne_of_isPrefix (hp : PlainHash tableName) (hk : hashBytes tableName <+: key)
    (h : ty.text.isSome = true) : writeKeyPrefix ty hash ≠ key := by
  rintro rfl
  obtain ⟨text, ht, hmem⟩ := exists_text h
  rw [writeKeyPrefix_text ht] at hk
  refine hp text hmem (prefix_of_prefix_length_le (prefix_append _ _) hk ?_)
  rw [length_text hmem, length_hashBytes]
  decide

theorem hashes_congr (h : ∀ hash, s.contents (writeKeyPrefix ty hash) =
    t.contents (writeKeyPrefix ty hash)) : s.hashes ty = t.hashes ty := by
  ext hash
  rw [hashes, Set.mem_ofPred_eq, h hash]
  rfl

/-- Writes to keys of tables leave the names alone. -/
theorem directory_congr (hp : PlainHash tableName)
    (h : ∀ k, ¬ hashBytes tableName <+: k → s.contents k = t.contents k) :
    s.directory = t.directory := by
  have hty : ∀ ty : CodecType, ty.text.isSome = true → s.hashes ty = t.hashes ty :=
    fun ty ht => hashes_congr fun hash => h _ fun hk => ne_of_isPrefix hp hk ht rfl
  rw [directory, directory, hty .root rfl, hty .view rfl, hty .hash rfl]

/-- A written or deleted name of one kind. -/
theorem hashes_update {written : Option Bytes}
    (hs : t.contents = update s.contents (writeKeyPrefix ty' hash) written)
    (h : ty.text.isSome = true) (h' : ty'.text.isSome = true) :
    t.hashes ty = if ty = ty' then
        if written.isSome then insert hash (s.hashes ty) else s.hashes ty \ {hash}
      else s.hashes ty := by
  by_cases he : ty = ty'
  · subst he
    rw [if_pos rfl]
    ext x
    rw [hashes, Set.mem_ofPred_eq, hs]
    by_cases hx : x = hash
    · subst hx
      rw [update_self]
      cases written <;> simp
    · rw [update_of_ne fun he => hx ((writeKeyPrefix_inj h h).mp he).2]
      cases written <;> simp [hx, hashes]
  · rw [if_neg he]
    refine hashes_congr fun x => ?_
    rw [hs, update_of_ne fun h₁ => he ((writeKeyPrefix_inj h h').mp h₁).1]

namespace Directory

def add (d : Directory) (ty : CodecType) (hash : Bytes) : Directory :=
  match ty with
  | .root => { d with tables := insert hash d.tables }
  | .view => { d with views := insert hash d.views }
  | .hash => { d with reserved := insert hash d.reserved }
  | _ => d

def drop (d : Directory) (ty : CodecType) (hash : Bytes) : Directory :=
  match ty with
  | .root => { d with tables := d.tables \ {hash} }
  | .view => { d with views := d.views \ {hash} }
  | .hash => { d with reserved := d.reserved \ {hash} }
  | _ => d

variable {d : Directory}

theorem Exact.addTable (h : d.Exact) (hf : hash ∉ d.reserved) :
    ((d.add .hash hash).add .root hash).Exact := by
  rw [h.reserved] at hf
  refine ⟨?_, fun x hx hv => ?_⟩
  · change insert hash d.reserved = insert hash d.tables ∪ d.views
    rw [h.reserved, Set.insert_union]
  · rcases Set.mem_insert_iff.mp hx with rfl | hx
    · exact hf (Or.inr hv)
    · exact h.disjoint x hx hv

theorem Exact.addView (h : d.Exact) (hf : hash ∉ d.reserved) :
    ((d.add .hash hash).add .view hash).Exact := by
  rw [h.reserved] at hf
  refine ⟨?_, fun x hx hv => ?_⟩
  · change insert hash d.reserved = d.tables ∪ insert hash d.views
    rw [h.reserved, Set.union_insert]
  · rcases Set.mem_insert_iff.mp hv with rfl | hv
    · exact hf (Or.inl hx)
    · exact h.disjoint x hx hv

theorem Exact.replaceView (h : d.Exact) (hv : hash ∈ d.views) : (d.add .view hash).Exact := by
  have he : d.add .view hash = d := by rw [add, Set.insert_eq_of_mem hv]
  rwa [he]

theorem Exact.dropTable (h : d.Exact) (ht : hash ∈ d.tables) :
    ((d.drop .hash hash).drop .root hash).Exact := by
  refine ⟨?_, fun x hx hv => h.disjoint x hx.1 hv⟩
  change d.reserved \ {hash} = d.tables \ {hash} ∪ d.views
  rw [h.reserved, Set.union_sdiff_distrib, Set.sdiff_singleton_eq_self (h.disjoint hash ht)]

/-- A name that no table has can be given free together with its view. -/
theorem Exact.dropView (h : d.Exact) (ht : hash ∉ d.tables) :
    ((d.drop .hash hash).drop .view hash).Exact := by
  refine ⟨?_, fun x hx hv => h.disjoint x hx hv.1⟩
  change d.reserved \ {hash} = d.tables ∪ d.views \ {hash}
  rw [h.reserved, Set.union_sdiff_distrib, Set.sdiff_singleton_eq_self ht]

/-- A name given free while a table has it is missing. -/
theorem not_exact_drop (ht : hash ∈ d.tables) : ¬ (d.drop .hash hash).Exact := by
  intro h
  have hmem : hash ∈ d.reserved \ {hash} := by
    rw [show d.reserved \ {hash} = _ from h.reserved]
    exact Or.inl ht
  exact hmem.2 rfl

end Directory

theorem directory_update {written : Option Bytes}
    (hs : t.contents = update s.contents (writeKeyPrefix ty hash) written)
    (h : ty.text.isSome = true) :
    t.directory =
      if written.isSome then s.directory.add ty hash else s.directory.drop ty hash := by
  rw [directory, hashes_update hs rfl h, hashes_update hs rfl h, hashes_update hs rfl h]
  cases written <;> cases ty <;> rfl

theorem directory_insert (h : ty.text.isSome = true) :
    directory (s.insert (writeKeyPrefix ty hash) bytes) = s.directory.add ty hash :=
  directory_update (contents_insert ..) h

theorem directory_erase (h : ty.text.isSome = true) :
    directory (s.erase (writeKeyPrefix ty hash)) = s.directory.drop ty hash :=
  directory_update (contents_erase ..) h

namespace Transaction

/-- Nothing changes outside of the keys of one table. -/
def Local (name : String) (s t : Store) : Prop :=
  ∀ k, ¬ hashBytes name <+: k → t.contents k = s.contents k

theorem Local.refl (s : Store) : Local name s s := fun _ _ => rfl

theorem Local.trans {u : Store} (h : Local name s t) (h' : Local name t u) : Local name s u :=
  fun k hk => (h' k hk).trans (h k hk)

theorem Local.directory (hp : PlainHash name) (h : Local name s t) : t.directory = s.directory :=
  directory_congr hp h

theorem Local.insert (h : hashBytes name <+: key) : Local name s (s.insert key bytes) :=
  fun k hk => by rw [contents_insert, update_of_ne fun he => hk (by rwa [he])]

theorem hash_isPrefix (ht : ty.tag.isSome = true) (rest : Bytes) :
    hashBytes name <+: writeKeyPrefix ty (hashBytes name) ++ rest := by
  obtain ⟨tag, ht⟩ := Option.isSome_iff_exists.mp ht
  rw [writeKeyPrefix_tag ht, append_assoc]
  exact prefix_append _ _

theorem removeBound_local (name : String) (ht : ty.tag.isSome = true) (s : Store) :
    ∃ t, removeBound (bound ty name) s = (.ok (), t) ∧ Local name s t := by
  obtain ⟨t, hrun, hs⟩ := removeRange_spec (show Bound.isInverted
    (.included (bound ty name).1) (.included (bound ty name).2) = false from isGT_bounds _) s
  refine ⟨t, hrun, fun k hk => ?_⟩
  rw [hs, if_neg]
  intro hin
  simp only [inRange, Bound.admitsMin, Bound.admitsMax, bound, Bool.and_eq_true] at hin
  refine hk (List.IsPrefix.trans ?_ (KeyRange.isPrefix_of_between hin.1 hin.2))
  simpa using hash_isPrefix ht []

theorem dropData_local (s : Store) : ∃ t, dropData name s = (.ok (), t) ∧ Local name s t := by
  obtain ⟨s₁, h₁, hl₁⟩ :=
    removeBound_local name (show tuple.tag.isSome = true from rfl) s
  obtain ⟨s₂, h₂, hl₂⟩ :=
    removeBound_local name (show index.tag.isSome = true from rfl) s₁
  obtain ⟨s₃, h₃, hl₃⟩ :=
    removeBound_local name (show statistics.tag.isSome = true from rfl) s₂
  refine ⟨s₃, ?_, (hl₁.trans hl₂).trans hl₃⟩
  rw [dropData, withTupleBound_eq]
  exact bind_eq_ok.mpr ⟨(), s₁, h₁, bind_eq_ok.mpr ⟨(), s₂, h₂, h₃⟩⟩

theorem mem_tables :
    hashBytes name ∈ s.directory.tables ↔ (s.contents (rootKey name)).isSome = true := by
  rw [rootKey]
  rfl

theorem mem_views :
    hashBytes name ∈ s.directory.views ↔ (s.contents (viewKey name)).isSome = true := by
  rw [viewKey]
  rfl

theorem mem_reserved :
    hashBytes name ∈ s.directory.reserved ↔ (s.contents (hashKey name)).isSome = true := by
  rw [hashKey]
  rfl

/-- A table takes its name with it when it goes. -/
theorem directory_dropTable (hp : PlainHash name) (ifExists : Bool) (s : Store)
    (h : hashBytes name ∈ s.directory.tables) :
    (dropTable name ifExists s).2.directory =
      (s.directory.drop .hash (hashBytes name)).drop .root (hashBytes name) := by
  obtain ⟨s₁, h₁, hl₁⟩ : ∃ t, dropData name (s.erase (hashKey name)) = (.ok (), t) ∧ _ :=
    dropData_local _
  obtain ⟨s₂, h₂, hl₂⟩ :=
    removeBound_local name (show column.tag.isSome = true from rfl) s₁
  obtain ⟨s₃, h₃, hl₃⟩ :=
    removeBound_local name (show indexMeta.tag.isSome = true from rfl) s₂
  rw [dropTable, dropNameHash, withColumnsBound, withIndexMetaBound,
    bind_of_ok (contains_eq_ok.mpr ⟨mem_tables.mp h, rfl⟩), if_pos rfl, bind_of_ok (remove_eq _ _),
    bind_of_ok h₁, bind_of_ok h₂, bind_of_ok h₃, bind_of_ok (remove_eq _ _)]
  change directory (s₃.erase (rootKey name)) = _
  rw [rootKey, directory_erase rfl, ((hl₁.trans hl₂).trans hl₃).directory hp, hashKey,
    directory_erase rfl]

theorem contains_of_not_mem (h : ¬ (s.contents key).isSome = true) :
    contains key s = (.ok false, s) :=
  contains_eq_ok.mpr ⟨Bool.eq_false_iff.mpr h, rfl⟩

theorem dropTable_absent (ifExists : Bool) (h : hashBytes name ∉ s.directory.tables) :
    (dropTable name ifExists s).2 = s := by
  rw [dropTable, bind_of_ok (contains_of_not_mem (mem_tables.not.mp h)), if_neg Bool.false_ne_true]
  split <;> rfl

theorem directory_erase_hash (name : String) (s : Store) :
    directory (s.erase (hashKey name)) = s.directory.drop .hash (hashBytes name) := by
  rw [hashKey, directory_erase rfl]

/-- The name goes even where there is no such view. -/
theorem directory_dropView (name : String) (ifExists : Bool) (s : Store) :
    (dropView name ifExists s).2.directory =
      (s.directory.drop .hash (hashBytes name)).drop .view (hashBytes name) := by
  rw [dropView, dropNameHash, bind_of_ok (remove_eq _ _), ← directory_erase_hash]
  by_cases hv : (contents (s.erase (hashKey name)) (viewKey name)).isSome = true
  · rw [bind_of_ok (contains_eq_ok.mpr ⟨hv, rfl⟩), if_pos rfl, bind_of_ok (remove_eq _ _)]
    change directory (Std.TreeMap.erase _ (viewKey name)) = _
    rw [viewKey, directory_erase rfl]
  · rw [bind_of_ok (contains_of_not_mem hv), if_neg Bool.false_ne_true]
    have hd : directory (s.erase (hashKey name)) =
        (directory (s.erase (hashKey name))).drop .view (hashBytes name) := by
      rw [Directory.drop, Set.sdiff_singleton_eq_self (mem_views.not.mpr hv)]
    rw [← hd]
    split <;> rfl

theorem dropView_eq (ifExists : Bool) (h : hashBytes name ∉ s.directory.views) :
    dropView name ifExists s = (if ifExists then .ok false else .error (.error .viewNotFound),
      s.erase (hashKey name)) := by
  have hv : ¬ (contents (s.erase (hashKey name)) (viewKey name)).isSome = true := by
    rw [contents_erase, update_of_ne]
    · exact mem_views.not.mp h
    · rw [viewKey, hashKey, ne_eq, writeKeyPrefix_inj rfl rfl]
      simp
  rw [dropView, dropNameHash, bind_of_ok (remove_eq _ _),
    bind_of_ok (contains_of_not_mem hv), if_neg Bool.false_ne_true]
  split <;> rfl

theorem checkNameHash_taken (h : hashBytes name ∈ s.directory.reserved) :
    checkNameHash name s = (.error (.error (.duplicateSourceHash name)), s) := by
  rw [checkNameHash, bind_of_ok (contains_eq_ok.mpr ⟨mem_reserved.mp h, rfl⟩), if_pos rfl]
  rfl

theorem checkNameHash_free (h : hashBytes name ∉ s.directory.reserved) :
    checkNameHash name s = (.ok (), s.insert (hashKey name) []) := by
  rw [checkNameHash, bind_of_ok (contains_of_not_mem (mem_reserved.not.mp h)),
    if_neg Bool.false_ne_true]
  exact set_eq _ _ _

theorem directory_insert_hash (name : String) (s : Store) :
    directory (s.insert (hashKey name) []) = s.directory.add .hash (hashBytes name) := by
  rw [hashKey, directory_insert rfl]

theorem directory_insert_view (name : String) (s : Store) (bytes : Bytes) :
    directory (s.insert (viewKey name) bytes) =
      s.directory.add .view (hashBytes name) := by
  rw [viewKey, directory_insert rfl]

/-- What `create_table` calls the index of a unique column. -/
def uniqueIndexName (columnName : String) : String := "uk_" ++ columnName ++ "_index"

theorem uniqueIndexName_injective : Injective uniqueIndexName := by
  intro a b h
  have hl := congrArg String.toList h
  simp only [uniqueIndexName, String.toList_append, append_assoc] at hl
  exact String.toList_inj.mp (append_cancel_right (append_cancel_left hl))

theorem uniqueIndexName_ne (columnName : String) : uniqueIndexName columnName ≠ "pk_index" := by
  intro h
  have hl := congrArg String.toList h
  simp [uniqueIndexName, String.toList_append] at hl

theorem primaryKeyIds_ok {table : TableCatalog} (h : table.Placed) :
    ∃ ids, primaryKeyIds table = .ok ids ∧
      ∀ columnId ∈ ids, ∃ c ∈ table.columns, c.id = some columnId := by
  have hid : ∀ i ∈ table.primaryKeyIndices, ∃ columnId,
      unwrap (table.columns[i]?.bind ColumnCatalog.id) = .ok columnId := by
    intro i hi
    obtain ⟨c, hc, -⟩ := getElem?_of_mem_primaryKeyIndices hi
    obtain ⟨columnId, hrel⟩ := h.relation c (mem_of_getElem? hc)
    exact ⟨columnId, by rw [hc, bind_some, ColumnCatalog.id, hrel, unwrap]⟩
  obtain ⟨ids, hids⟩ := Traverse.exists_mapM_iff.mpr hid
  refine ⟨ids, hids, fun columnId hmem => ?_⟩
  obtain ⟨i, -, hi⟩ := Traverse.exists_of_mem_mapM hids hmem
  cases hc : table.columns[i]? with
  | none =>
    rw [hc] at hi
    cases hi
  | some c =>
    rw [hc, bind_some] at hi
    refine ⟨c, mem_of_getElem? hc, ?_⟩
    cases hcid : c.id with
    | none =>
      rw [hcid] at hi
      cases hi
    | some id =>
      rw [hcid] at hi
      cases hi
      rfl

theorem directory_insert_root (name : String) (s : Store) (bytes : Bytes) :
    directory (s.insert (rootKey name) bytes) =
      s.directory.add .root (hashBytes name) := by
  rw [rootKey, directory_insert rfl]

variable {table table' : TableCatalog} {column : ColumnCatalog} {columns : List ColumnCatalog}

/-- A table that stands for the same columns, under the same name. -/
structure SameColumns (table table' : TableCatalog) : Prop where
  name : table'.name = table.name
  columns : table'.columns = table.columns

theorem SameColumns.placed (h : SameColumns table table') (hp : table.Placed) : table'.Placed :=
  ⟨by rw [h.columns, h.name]; exact hp.relation, by rw [h.columns]; exact hp.names⟩

theorem liftM_of_ok {α : Type} {x : Result α} {a : α} (h : x = .ok a) (s : Store) :
    (liftM x : Exec α) s = (.ok a, s) := liftM_eq.mpr ⟨h, rfl⟩

section Create

variable [CatalogCodec] {view : View}

theorem setView_eq (h : encodeView view = .ok bytes) (s : Store) :
    (do
      let (key, value) ← withViewValue view
      set key value
      return view : Exec View) s = (.ok view, s.insert (viewKey view.name) bytes) := by
  have hw : (liftM (withViewValue view) : Exec (Bytes × Bytes)) s =
      (.ok (viewKey view.name, bytes), s) := by
    rw [liftM_eq, withViewValue, h]
    exact ⟨rfl, rfl⟩
  rw [bind_of_ok hw]
  exact bind_of_ok (set_eq _ _ _)

theorem directory_createView (h : encodeView view = .ok bytes) (orReplace : Bool)
    (s : Store) : (createView view orReplace s).2.directory = s.directory ∨
      hashBytes view.name ∈ s.directory.views ∧ (createView view orReplace s).2.directory =
        s.directory.add .view (hashBytes view.name) ∨
      hashBytes view.name ∉ s.directory.reserved ∧ (createView view orReplace s).2.directory =
        (s.directory.add .hash (hashBytes view.name)).add .view (hashBytes view.name) := by
  rw [createView]
  by_cases hv : hashBytes view.name ∈ s.directory.views
  · rw [bind_of_ok (contains_eq_ok.mpr ⟨mem_views.mp hv, rfl⟩)]
    cases orReplace with
    | false => exact Or.inl rfl
    | true =>
      refine Or.inr (Or.inl ⟨hv, ?_⟩)
      rw [if_neg (by decide), if_neg (by decide)]
      exact (congrArg (fun r => directory r.2) (setView_eq h s)).trans
        (directory_insert_view view.name s bytes)
  · rw [bind_of_ok (contains_of_not_mem (mem_views.not.mp hv)), if_neg (by simp),
      if_pos (by decide)]
    by_cases hn : hashBytes view.name ∈ s.directory.reserved
    · rw [bind_of_error (checkNameHash_taken hn)]
      exact Or.inl rfl
    · refine Or.inr (Or.inr ⟨hn, ?_⟩)
      rw [bind_of_ok (checkNameHash_free hn), ← directory_insert_hash]
      exact (congrArg (fun r => directory r.2) (setView_eq h _)).trans
        (directory_insert_view view.name _ bytes)

/-- A new index has a record of its own. -/
theorem setIndexMeta_local (henc : ∀ index, ∃ bytes, encodeIndexMeta index = .ok bytes)
    (index : IndexMeta) (s : Store) :
    ∃ t, setIndexMeta name index s = (.ok (), t) ∧ Local name s t := by
  obtain ⟨bytes, hb⟩ := henc index
  have hw : (liftM (withIndexMeta name index) : Exec (Bytes × Bytes)) s =
      (.ok (indexMetaKey name index.id, bytes), s) := by
    rw [liftM_eq, withIndexMeta, hb]
    exact ⟨rfl, rfl⟩
  refine ⟨s.insert (indexMetaKey name index.id) bytes, ?_, ?_⟩
  · rw [setIndexMeta, bind_of_ok hw]
    exact set_eq _ _ _
  · exact Local.insert (hash_isPrefix (show indexMeta.tag.isSome = true from rfl) _)

section Indexes

variable (henc : ∀ index, ∃ bytes, encodeIndexMeta index = .ok bytes)

include henc in
theorem createColumnIndex_ok (hp : table.Placed) (hc : column ∈ table.columns)
    (hname : ∀ i ∈ table.indexes, i.name ≠ uniqueIndexName column.name) (s : Store) :
    ∃ table' t, createColumnIndex table column s = (.ok table', t) ∧ Local table.name s t ∧
      SameColumns table table' ∧
      ∀ i ∈ table'.indexes, i ∈ table.indexes ∨ i.name = uniqueIndexName column.name := by
  obtain ⟨columnId, hrel⟩ := hp.relation column hc
  have hid : column.id = some columnId := by rw [ColumnCatalog.id, hrel]
  by_cases hu : (column.desc.primary.isNone && column.desc.isUnique) = true
  · obtain ⟨table₁, index, hadd⟩ :
        ∃ table₁ index, table.addIndexMeta (uniqueIndexName column.name) [columnId] .unique =
          .ok (table₁, index) :=
      addIndexMeta_ok hname (by simpa using ⟨column, hc, hid⟩)
    obtain ⟨-, -, -, -, hn, rfl⟩ := addIndexMeta_eq_ok hadd
    obtain ⟨t, ht, hl⟩ : ∃ t, setIndexMeta table.name index s = (.ok (), t) ∧ _ :=
      setIndexMeta_local henc index s
    refine ⟨{ table with indexes := table.indexes ++ [index] }, t, ?_, hl, ⟨rfl, rfl⟩,
      fun i hi => ?_⟩
    · rw [createColumnIndex, hid]
      change (if _ then _ else _ : Exec TableCatalog) s = _
      rw [if_pos hu, ← uniqueIndexName, bind_of_ok (liftM_of_ok hadd s)]
      exact bind_of_ok ht
    · rcases mem_append.mp hi with hi | hi
      · exact Or.inl hi
      · obtain rfl := mem_singleton.mp hi
        exact Or.inr hn
  · refine ⟨table, s, ?_, Local.refl s, ⟨rfl, rfl⟩, fun i hi => Or.inl hi⟩
    rw [createColumnIndex, hid]
    change (if _ then _ else _ : Exec TableCatalog) s = _
    rw [if_neg hu]
    rfl

include henc in
theorem foldlM_createColumnIndex_ok (hp : table.Placed) (hsub : ∀ c ∈ columns, c ∈ table.columns)
    (hnodup : (columns.map (·.name)).Nodup)
    (hname : ∀ i ∈ table.indexes, ∀ c ∈ columns, i.name ≠ uniqueIndexName c.name) (s : Store) :
    ∃ table' t, columns.foldlM createColumnIndex table s = (.ok table', t) ∧
      Local table.name s t ∧ SameColumns table table' ∧
      ∀ i ∈ table'.indexes, i ∈ table.indexes ∨ ∃ c ∈ columns, i.name = uniqueIndexName c.name := by
  induction columns generalizing table s with
  | nil => exact ⟨table, s, rfl, Local.refl s, ⟨rfl, rfl⟩, fun i hi => Or.inl hi⟩
  | cons c columns ih =>
    rw [map_cons, nodup_cons] at hnodup
    obtain ⟨table₁, s₁, h₁, hl₁, hsame₁, hi₁⟩ :=
      createColumnIndex_ok henc hp (hsub c (by simp)) (fun i hi => hname i hi c (by simp)) s
    have hname₁ : ∀ i ∈ table₁.indexes, ∀ d ∈ columns, i.name ≠ uniqueIndexName d.name := by
      intro i hi d hd
      rcases hi₁ i hi with hi | hi
      · exact hname i hi d (by simp [hd])
      · rw [hi]
        refine fun he => hnodup.1 (mem_map.mpr ⟨d, hd, ?_⟩)
        exact (uniqueIndexName_injective he).symm
    obtain ⟨table', t, ht, hl, hsame, hi'⟩ := ih (hsame₁.placed hp)
      (fun d hd => hsame₁.columns ▸ hsub d (by simp [hd])) hnodup.2 hname₁ s₁
    refine ⟨table', t, ?_, hl₁.trans (hsame₁.name ▸ hl),
      ⟨hsame.name.trans hsame₁.name, hsame.columns.trans hsame₁.columns⟩, fun i hi => ?_⟩
    · rw [foldlM_cons, bind_of_ok h₁, ht]
    · rcases hi' i hi with hi | ⟨d, hd, hi⟩
      · rcases hi₁ i hi with hi | hi
        · exact Or.inl hi
        · exact Or.inr ⟨c, by simp, hi⟩
      · exact Or.inr ⟨d, by simp [hd], hi⟩

include henc in
/-- The indexes that come with a new table can all be made. -/
theorem createIndexMetaFromColumn_ok (hp : table.Placed) (hnew : table.indexes = [])
    (s : Store) : ∃ table' t, createIndexMetaFromColumn table s = (.ok table', t) ∧
      Local table.name s t ∧ SameColumns table table' := by
  obtain ⟨table₁, s₁, h₁, hl₁, hsame₁, hi₁⟩ :=
    foldlM_createColumnIndex_ok henc hp (fun c hc => hc) hp.names (by simp [hnew]) s
  obtain ⟨ids, hids, hmem⟩ := primaryKeyIds_ok (hsame₁.placed hp)
  have hname : ∀ i ∈ table₁.indexes, i.name ≠ "pk_index" := by
    intro i hi
    rcases hi₁ i hi with hi | ⟨c, -, hi⟩
    · simp [hnew] at hi
    · exact hi ▸ uniqueIndexName_ne c.name
  obtain ⟨table₂, index, hadd⟩ :
      ∃ table₂ index, table₁.addIndexMeta "pk_index" ids (.primaryKey (ids.length ≠ 1)) =
        .ok (table₂, index) := addIndexMeta_ok hname hmem
  obtain ⟨-, -, -, -, -, rfl⟩ := addIndexMeta_eq_ok hadd
  obtain ⟨t, ht, hl⟩ : ∃ t, setIndexMeta table₁.name index s₁ = (.ok (), t) ∧ _ :=
    setIndexMeta_local henc index s₁
  refine ⟨{ table₁ with indexes := table₁.indexes ++ [index] }, t, ?_,
    hl₁.trans (hsame₁.name ▸ hl), ⟨hsame₁.name, hsame₁.columns⟩⟩
  rw [createIndexMetaFromColumn, bind_of_ok h₁,
    bind_of_ok (liftM_of_ok hids s₁), bind_of_ok (liftM_of_ok hadd s₁)]
  exact bind_of_ok ht

theorem setRootTable_eq (h : encodeRootTable name = .ok bytes) (s : Store) :
    setRootTable name s = (.ok (), s.insert (rootKey name) bytes) := by
  have hw : withRootTable name = .ok (rootKey name, bytes) := by
    rw [withRootTable, h]
    rfl
  rw [setRootTable, bind_of_ok (liftM_of_ok hw s)]
  exact set_eq _ _ _

/-- The records of columns are keys of their table. -/
theorem relates_setColumn (hp : table.Placed) (hc : column ∈ table.columns) :
    Relates (Local table.name) (setColumn column) := by
  obtain ⟨columnId, hrel⟩ := hp.relation column hc
  intro s
  rw [setColumn]
  cases hw : withColumn column true with
  | error e => exact Local.refl s
  | ok kv =>
    obtain ⟨key, value⟩ := kv
    rw [withColumn, hrel] at hw
    obtain ⟨bytes, -, hw⟩ := Result.bind_eq_ok.mp hw
    cases hw
    exact Local.insert (hash_isPrefix (show CodecType.column.tag.isSome = true from rfl) _)

include henc in
theorem directory_createTable (hp : PlainHash name) (hroot : encodeRootTable name = .ok bytes)
    (columns : List ColumnCatalog) (ifNotExists : Bool) (s : Store) :
    (createTable name columns ifNotExists s).2.directory = s.directory ∨
      hashBytes name ∉ s.directory.reserved ∧
        (createTable name columns ifNotExists s).2.directory =
          (s.directory.add .hash (hashBytes name)).add .root (hashBytes name) := by
  rw [createTable]
  cases hnew : new name columns with
  | error e => exact Or.inl rfl
  | ok table =>
    obtain ⟨hplaced, rfl, hindexes⟩ := new_eq_ok hnew
    rw [bind_of_ok (liftM_of_ok rfl s)]
    cases hty : checkPrimaryKeyTypes table with
    | error e => exact Or.inl rfl
    | ok u =>
      rw [bind_of_ok (liftM_of_ok rfl s)]
      by_cases ht : hashBytes table.name ∈ s.directory.tables
      · rw [bind_of_ok (contains_eq_ok.mpr ⟨mem_tables.mp ht, rfl⟩), if_pos rfl]
        left
        split <;> rfl
      · rw [bind_of_ok (contains_of_not_mem (mem_tables.not.mp ht)), if_neg Bool.false_ne_true]
        by_cases hn : hashBytes table.name ∈ s.directory.reserved
        · rw [bind_of_error (checkNameHash_taken hn)]
          exact Or.inl rfl
        · refine Or.inr ⟨hn, ?_⟩
          obtain ⟨table', t, hrun, hl, hsame⟩ := createIndexMetaFromColumn_ok henc hplaced
            hindexes (s.insert (hashKey table.name) [])
          have hcolumns : Stateful.Relates (Local table.name) (table'.columns.forM setColumn) :=
            relates_forM Local.refl Local.trans fun c hc =>
              hsame.name ▸ relates_setColumn (hsame.placed hplaced) hc
          rw [bind_of_ok (checkNameHash_free hn), bind_of_ok hrun,
            bind_of_ok (setRootTable_eq hroot t)]
          have hrest : Stateful.Relates (Local table.name)
              (table'.columns.forM setColumn >>= fun _ => pure (some table')) :=
            hcolumns.bind Local.trans fun _ => relates_pure Local.refl _
          refine ((hrest _).directory hp).trans ?_
          rw [directory_insert_root, hl.directory hp, directory_insert_hash]

end Indexes

end Create

end Transaction

end KiteSQL
