import KiteSQL.Storage.RemoveRange
import KiteSQL.Storage.Schema

/-! The families of keys in the store, and which of them the statements that drop remove. -/
namespace KiteSQL

open TableCodec Endian Function List Stateful KeyRange CodecType Bound

/-- The parts of the statistics of an index. -/
inductive StatisticsKey where
  | root
  | sketchMeta
  | sketchPage (row page : UInt32)
  | bucket (ordinal : UInt32)
  | topN

def StatisticsKey.bytes : StatisticsKey → Bytes
  | .root => [0x30]
  | .sketchMeta => [0x31]
  | .sketchPage row page =>
    0x32 :: boundMinTag :: (toBeBytes 4 row.toNat ++ boundMinTag :: toBeBytes 4 page.toNat)
  | .bucket ordinal => 0x33 :: boundMinTag :: toBeBytes 4 ordinal.toNat
  | .topN => [0x34]

/-- A key that the store can hold for a name. -/
inductive StoreKey where
  | column (columnId : ColumnId)
  | indexMeta (indexId : UInt32)
  | statistics (indexId : UInt32) (part : StatisticsKey)
  | index (indexId : UInt32) (values : Bytes)
  | tuple (tupleId : Bytes)
  | root
  | view
  | hash

namespace StoreKey

def bytes (name : String) : StoreKey → Bytes
  | .column columnId => columnKey name columnId
  | .indexMeta indexId => indexMetaKey name indexId
  | .statistics indexId part => statisticsPrefix name indexId ++ part.bytes
  | .index indexId values => indexPrefix name indexId boundMinTag ++ values
  | .tuple tupleId => tuplePrefix name boundMinTag ++ tupleId
  | .root => rootKey name
  | .view => viewKey name
  | .hash => hashKey name

def ty : StoreKey → CodecType
  | .column _ => .column
  | .indexMeta _ => .indexMeta
  | .statistics _ _ => .statistics
  | .index _ _ => .index
  | .tuple _ => .tuple
  | .root => .root
  | .view => .view
  | .hash => .hash

/-- The record, an entry or a part of the statistics of one index. -/
def ofIndex (id : UInt32) : StoreKey → Prop
  | .indexMeta indexId | .statistics indexId _ | .index indexId _ => indexId = id
  | _ => False

/-- Rows, index entries and statistics. -/
def isData : StoreKey → Prop
  | .tuple _ | .index _ _ | .statistics _ _ => True
  | _ => False

end StoreKey

open StoreKey

/-- The hash of the name does not start like the keys that stand outside of all tables. -/
def PlainHash (name : String) : Prop :=
  ∀ text ∈ ["Root", "View", "Hash"], ¬ asBytes text <+: hashBytes name

/-- Names with different hashes that are no beginning of another kind of key. -/
structure Separate (names : Set String) : Prop where
  distinct : ∀ a ∈ names, ∀ b ∈ names, hashBytes a = hashBytes b → a = b
  plain : ∀ a ∈ names, PlainHash a

/-- The byte that tells the families of a table apart. -/
def CodecType.tag : CodecType → Option UInt8
  | .column => some 0x30
  | .indexMeta => some 0x31
  | .statistics => some 0x33
  | .index => some 0x37
  | .tuple => some 0x38
  | .root | .view | .hash => none

/-- What the keys outside of all tables start with. -/
def CodecType.text : CodecType → Option String
  | .root => some "Root"
  | .view => some "View"
  | .hash => some "Hash"
  | _ => none

variable {name tableName : String} {key : StoreKey} {ty ty' : CodecType} {tag : UInt8} {id : UInt32}
  {names : Set String} {store store' s t : Store} {k : Bytes} {text : String} {x : Exec Unit}

theorem writeKeyPrefix_tag (h : ty.tag = some tag) (hash : Bytes) :
    writeKeyPrefix ty hash = hash ++ [tag] := by
  cases ty <;> cases h <;> rfl

theorem writeKeyPrefix_text (h : ty.text = some text) (hash : Bytes) :
    writeKeyPrefix ty hash = asBytes text ++ boundMinTag :: hash := by
  cases ty <;> cases h <;> rfl

theorem tag_injective (h : ty.tag = some tag) (h' : ty'.tag = some tag) : ty = ty' := by
  cases ty <;> cases h <;> cases ty' <;> first | rfl | cases h'

theorem tag_or_text (ty : CodecType) :
    (∃ tag, ty.tag = some tag) ∨ ∃ text, ty.text = some text ∧ text ∈ ["Root", "View", "Hash"] := by
  cases ty <;> simp [tag, text]

theorem text_injective (h : ty.text = some text) (h' : ty'.text = some text) : ty = ty' := by
  cases ty <;> cases h <;> cases ty' <;> simp_all [text]

/-- A hash is longer than the texts that other keys start with. -/
theorem length_text (h : text ∈ ["Root", "View", "Hash"]) : (asBytes text).length = 4 := by
  simp only [mem_cons, not_mem_nil, or_false] at h
  rcases h with rfl | rfl | rfl <;> rfl

namespace StoreKey

/-- A key of a table continues the prefix of its family with the least tag. -/
theorem bytes_of_tag (h : key.ty.tag = some tag) :
    ∃ rest, key.bytes name = hashBytes name ++ [tag] ++ boundMinTag :: rest := by
  cases key <;> cases h <;>
    simp [bytes, columnKey, indexMetaKey, statisticsPrefix, indexPrefix, tuplePrefix,
      writeKeyPrefix]

theorem bytes_of_text (h : key.ty.text = some text) :
    key.bytes name = asBytes text ++ boundMinTag :: hashBytes name := by
  cases key <;> cases h <;> rfl

/-- Keys that start with a prefix of one family of a table belong to it. -/
theorem ty_of_isPrefix (hp : PlainHash tableName) (ht : ty.tag = some tag)
    (h : writeKeyPrefix ty (hashBytes tableName) <+: key.bytes name) :
    hashBytes name = hashBytes tableName ∧ key.ty = ty := by
  rw [writeKeyPrefix_tag ht] at h
  rcases tag_or_text key.ty with ⟨tag', ht'⟩ | ⟨text, htext, hmem⟩
  · obtain ⟨rest, hb⟩ : ∃ rest, key.bytes name = _ := bytes_of_tag ht'
    rw [hb, append_assoc] at h
    have hhash := prefix_of_prefix_length_le
      ((prefix_append (hashBytes tableName) [tag]).trans h)
      (prefix_append (hashBytes name) _) (by simp)
    have hh := hhash.eq_of_length (by simp)
    rw [hh, prefix_append_right_inj, singleton_append, cons_prefix_cons] at h
    rw [← h.1] at ht'
    exact ⟨hh.symm, tag_injective ht' ht⟩
  · rw [bytes_of_text htext] at h
    have hpre : asBytes text <+: hashBytes tableName := by
      refine prefix_of_prefix_length_le (prefix_append _ _)
        ((prefix_append _ [tag]).trans h) ?_
      rw [length_text hmem, length_hashBytes]
      decide
    exact absurd hpre (hp text hmem)

theorem bytes_eq_of_ty (ht : ty.tag = some tag) (hh : hashBytes name = hashBytes tableName)
    (hty : key.ty = ty) :
    ∃ rest, key.bytes name = writeKeyPrefix ty (hashBytes tableName) ++ boundMinTag :: rest := by
  obtain ⟨rest, hb⟩ : ∃ rest, key.bytes name = _ := bytes_of_tag (hty ▸ ht)
  exact ⟨rest, by rw [hb, hh, writeKeyPrefix_tag ht]⟩

/-- The bounds of a family hold the keys of this family of the table and no other. -/
theorem inRange_bound_iff (hp : PlainHash tableName) (ht : ty.tag = some tag) :
    inRange (.included (bound ty tableName).1) (.included (bound ty tableName).2)
        (key.bytes name) = true ↔ hashBytes name = hashBytes tableName ∧ key.ty = ty := by
  simp only [inRange, admitsMin, admitsMax, bound, Bool.and_eq_true]
  constructor
  · rintro ⟨hmin, hmax⟩
    exact ty_of_isPrefix hp ht (isPrefix_of_between hmin hmax)
  · rintro ⟨hh, hty⟩
    obtain ⟨rest, hb⟩ := bytes_eq_of_ty ht hh hty
    rw [hb, compare_append_left, compare_append_left]
    cases rest <;> exact ⟨rfl, rfl⟩

variable {id' : UInt32}

theorem toLeBytes_injective (h : toLeBytes indexIdLen id.toNat = toLeBytes indexIdLen id'.toNat) :
    id = id' := by
  have hid := congrArg fromLeBytes h
  rw [fromLeBytes_toLeBytes id.toNat_lt, fromLeBytes_toLeBytes id'.toNat_lt] at hid
  exact UInt32.toNat_inj.mp hid

/-- Ids have one length, so an id that starts a key is the id in the key. -/
theorem id_of_isPrefix {p rest : Bytes}
    (h : p ++ boundMinTag :: toLeBytes indexIdLen id.toNat <+:
      p ++ boundMinTag :: (toLeBytes indexIdLen id'.toNat ++ rest)) : id = id' := by
  rw [prefix_append_right_inj, cons_prefix_cons] at h
  have hp := prefix_of_prefix_length_le h.2 (prefix_append _ rest)
    (by simp [length_toLeBytes])
  exact toLeBytes_injective (hp.eq_of_length (by simp [length_toLeBytes]))

theorem inRange_indexBound_iff (hp : PlainHash tableName) :
    inRange (.included (withIndexBound tableName id).1) (.included (withIndexBound tableName id).2)
        (key.bytes name) = true ↔
      hashBytes name = hashBytes tableName ∧ ∃ values, key = .index id values := by
  have hsplit : ∀ b, indexPrefix tableName id b =
      (writeKeyPrefix .index (hashBytes tableName) ++
        boundMinTag :: toLeBytes indexIdLen id.toNat) ++ [b] := fun b => by simp [indexPrefix]
  simp only [inRange, admitsMin, admitsMax, withIndexBound, Bool.and_eq_true, hsplit]
  constructor
  · rintro ⟨hmin, hmax⟩
    have hpre := isPrefix_of_between hmin hmax
    obtain ⟨hh, hty⟩ := ty_of_isPrefix hp (show CodecType.index.tag = some _ from rfl)
      ((prefix_append _ _).trans hpre)
    cases key <;> cases hty
    rename_i id' values
    rw [bytes, indexPrefix, hh, append_assoc, cons_append, append_assoc] at hpre
    rw [id_of_isPrefix hpre]
    exact ⟨hh, values, rfl⟩
  · rintro ⟨hh, values, rfl⟩
    have hb : (index id values).bytes name =
        (writeKeyPrefix .index (hashBytes tableName) ++
          boundMinTag :: toLeBytes indexIdLen id.toNat) ++ boundMinTag :: values := by
      simp [bytes, indexPrefix, hh]
    rw [hb, compare_append_left, compare_append_left]
    cases values <;> exact ⟨rfl, rfl⟩

theorem inRange_statisticsIndexBound_iff (hp : PlainHash tableName) :
    inRange (.included (withStatisticsIndexBound tableName id).1)
        (.included (withStatisticsIndexBound tableName id).2) (key.bytes name) = true ↔
      hashBytes name = hashBytes tableName ∧ ∃ part, key = .statistics id part := by
  simp only [inRange, admitsMin, admitsMax, withStatisticsIndexBound, Bool.and_eq_true]
  constructor
  · rintro ⟨hmin, hmax⟩
    rw [← append_nil (statisticsPrefix tableName id)] at hmin
    have hpre := isPrefix_of_between hmin hmax
    obtain ⟨hh, hty⟩ := ty_of_isPrefix hp (show CodecType.statistics.tag = some _ from rfl)
      ((prefix_append _ _).trans hpre)
    cases key <;> cases hty
    rename_i id' part
    rw [bytes, statisticsPrefix, statisticsPrefix, hh, append_assoc, cons_append] at hpre
    rw [id_of_isPrefix hpre]
    exact ⟨hh, part, rfl⟩
  · rintro ⟨hh, part, rfl⟩
    have hb : (statistics id part).bytes name =
        statisticsPrefix tableName id ++ part.bytes := by
      simp [bytes, statisticsPrefix, hh]
    rw [hb, compare_append_left]
    refine ⟨?_, by cases part <;> rfl⟩
    have hself := compare_append_left (statisticsPrefix tableName id) [] part.bytes
    rw [append_nil] at hself
    rw [hself]
    cases part <;> rfl

/-- The key of an index record is the key of no other record. -/
theorem bytes_eq_indexMetaKey_iff (hp : PlainHash tableName) :
    key.bytes name = indexMetaKey tableName id ↔
      hashBytes name = hashBytes tableName ∧ key = .indexMeta id := by
  constructor
  · intro h
    have hpre : writeKeyPrefix .indexMeta (hashBytes tableName) <+: key.bytes name :=
      h ▸ prefix_append _ _
    obtain ⟨hh, hty⟩ := ty_of_isPrefix hp (show CodecType.indexMeta.tag = some _ from rfl) hpre
    cases key <;> cases hty
    rename_i id'
    rw [bytes, indexMetaKey, indexMetaKey, hh, append_cancel_left_eq] at h
    rw [toLeBytes_injective (cons.inj h).2]
    exact ⟨hh, rfl⟩
  · rintro ⟨hh, rfl⟩
    rw [bytes, indexMetaKey, indexMetaKey, hh]

/-- The keys that stand outside of all tables are told apart by their texts and hashes. -/
theorem bytes_eq_text_iff (hp : PlainHash name) (ht : ty.text = some text)
    (hmem : text ∈ ["Root", "View", "Hash"]) :
    key.bytes name = writeKeyPrefix ty (hashBytes tableName) ↔
      hashBytes name = hashBytes tableName ∧ key.ty = ty := by
  rw [writeKeyPrefix_text ht]
  constructor
  · intro h
    rcases tag_or_text key.ty with ⟨tag', ht'⟩ | ⟨text', htext, hmem'⟩
    · obtain ⟨rest, hb⟩ : ∃ rest, key.bytes name = _ := bytes_of_tag ht'
      have htext : asBytes text <+: key.bytes name := h ▸ prefix_append _ _
      have hhash : hashBytes name <+: key.bytes name := by
        rw [hb, append_assoc]
        exact prefix_append _ _
      have hpre : asBytes text <+: hashBytes name := by
        refine prefix_of_prefix_length_le htext hhash ?_
        rw [length_text hmem, length_hashBytes]
        decide
      exact absurd hpre (hp text hmem)
    · rw [bytes_of_text htext] at h
      obtain ⟨he, hh⟩ := append_inj h (by rw [length_text hmem', length_text hmem])
      rw [asBytes_inj] at he
      subst he
      exact ⟨(cons.inj hh).2, text_injective htext ht⟩
  · rintro ⟨hh, rfl⟩
    rw [bytes_of_text ht, hh]

end StoreKey

/-- Of the keys of these names precisely those in `P` are gone, and nothing is written. -/
structure Removes (names : Set String) (P : String → StoreKey → Prop) (store store' : Store) :
    Prop where
  gone : ∀ name ∈ names, ∀ key, P name key → store'.contents (key.bytes name) = none
  kept : ∀ name ∈ names, ∀ key, ¬ P name key →
    store'.contents (key.bytes name) = store.contents (key.bytes name)
  sub : ∀ k v, store'.contents k = some v → store.contents k = some v

/-- The computation succeeds and removes precisely the keys in `P`. -/
def Drops (names : Set String) (P : String → StoreKey → Prop) (x : Exec Unit) : Prop :=
  ∀ store, ∃ store', x store = (.ok (), store') ∧ Removes names P store store'

variable {P Q : String → StoreKey → Prop}

theorem Removes.trans (h : Removes names P store s) (h' : Removes names Q s store') :
    Removes names (fun name key => P name key ∨ Q name key) store store' := by
  refine ⟨fun name hn key hpq => ?_, fun name hn key hpq => ?_, fun k v hk => ?_⟩
  · by_cases hq : Q name key
    · exact h'.gone name hn key hq
    · rw [h'.kept name hn key hq]
      exact h.gone name hn key (hpq.resolve_right hq)
  · rw [not_or] at hpq
    rw [h'.kept name hn key hpq.2, h.kept name hn key hpq.1]
  · exact h.sub k v (h'.sub k v hk)

theorem Removes.congr (h : Removes names P store store')
    (hpq : ∀ name ∈ names, ∀ key, P name key ↔ Q name key) : Removes names Q store store' :=
  ⟨fun name hn key hq => h.gone name hn key ((hpq name hn key).mpr hq),
    fun name hn key hq => h.kept name hn key fun hp => hq ((hpq name hn key).mp hp), h.sub⟩

theorem Drops.bind {y : Exec Unit} (hx : Drops names P x) (hy : Drops names Q y) :
    Drops names (fun name key => P name key ∨ Q name key) (x >>= fun _ => y) := by
  intro store
  obtain ⟨s, hs, h⟩ := hx store
  obtain ⟨store', ht, h'⟩ := hy s
  exact ⟨store', bind_eq_ok.mpr ⟨(), s, hs, ht⟩, h.trans h'⟩

theorem Drops.congr (hx : Drops names P x) (hpq : ∀ name ∈ names, ∀ key, P name key ↔ Q name key) :
    Drops names Q x := by
  intro store
  obtain ⟨store', hs, h⟩ := hx store
  exact ⟨store', hs, h.congr hpq⟩

namespace Transaction

theorem drops_remove {key' : Bytes}
    (h : ∀ name ∈ names, ∀ key : StoreKey, key.bytes name = key' ↔ P name key) :
    Drops names P (remove key') := by
  intro store
  refine ⟨store.erase key', remove_eq_ok.mpr rfl, ?_, ?_, ?_⟩
  · intro name hn key hp
    rw [Store.contents_erase, (h name hn key).mpr hp, update_self]
  · intro name hn key hp
    rw [Store.contents_erase, update_of_ne fun he => hp ((h name hn key).mp he)]
  · intro k v hk
    rw [Store.contents_erase] at hk
    by_cases hkk : k = key'
    · rw [hkk, update_self] at hk
      cases hk
    · rwa [update_of_ne hkk] at hk

theorem drops_removeBound {b : Bytes × Bytes} (hb : (compare b.1 b.2).isGT = false)
    (h : ∀ name ∈ names, ∀ key : StoreKey,
      inRange (.included b.1) (.included b.2) (key.bytes name) = true ↔ P name key) :
    Drops names P (removeBound b) := by
  intro store
  obtain ⟨store', hrun, hs⟩ :=
    removeRange_spec (show isInverted (.included b.1) (.included b.2) = false from hb) store
  refine ⟨store', hrun, ?_, ?_, ?_⟩
  · intro name hn key hp
    rw [hs, if_pos ((h name hn key).mpr hp)]
  · intro name hn key hp
    rw [hs, if_neg fun hin => hp ((h name hn key).mp hin)]
  · intro k v hk
    rw [hs] at hk
    split at hk
    · cases hk
    · exact hk

/-- Bounds that differ in their last byte are in order. -/
theorem isGT_bounds (p : Bytes) :
    (compare (p ++ [boundMinTag]) (p ++ [boundMaxTag])).isGT = false := by
  rw [compare_append_left]
  rfl

variable (hn : Separate names) (ht : tableName ∈ names)

include hn ht in
theorem hash_eq_iff (hname : name ∈ names) :
    hashBytes name = hashBytes tableName ↔ name = tableName :=
  ⟨hn.distinct name hname tableName ht, fun h => by rw [h]⟩

include hn ht in
theorem drops_family (htag : ty.tag = some tag) :
    Drops names (fun name key => name = tableName ∧ key.ty = ty)
      (removeBound (bound ty tableName)) := by
  refine drops_removeBound (isGT_bounds _) fun name hname key => ?_
  rw [inRange_bound_iff (hn.plain _ ht) htag, hash_eq_iff hn ht hname]

include hn ht in
theorem drops_outside (htext : ty.text = some text) (hmem : text ∈ ["Root", "View", "Hash"]) :
    Drops names (fun name key => name = tableName ∧ key.ty = ty)
      (remove (writeKeyPrefix ty (hashBytes tableName))) := by
  refine drops_remove fun name hname key => ?_
  rw [bytes_eq_text_iff (hn.plain _ hname) htext hmem, hash_eq_iff hn ht hname]

theorem withTupleBound_eq (tableName : String) :
    withTupleBound tableName = bound .tuple tableName := rfl

include hn ht in
theorem drops_dropData :
    Drops names (fun name key => name = tableName ∧ key.isData) (dropData tableName) := by
  rw [dropData, withTupleBound_eq, withAllIndexBound, withStatisticsBound]
  refine Drops.congr (((drops_family hn ht (show tuple.tag = some _ from rfl)).bind
    ((drops_family hn ht (show index.tag = some _ from rfl)).bind
      (drops_family hn ht (show statistics.tag = some _ from rfl))))) ?_
  intro name _ key
  cases key <;> simp [ty, isData]

include hn ht in
theorem drops_removeIndex (id : UInt32) :
    Drops names (fun name key => name = tableName ∧ key.ofIndex id)
      (removeIndex tableName id) := by
  have hplain := hn.plain _ ht
  have hmeta : Drops names (fun name key => name = tableName ∧ key = .indexMeta id)
      (remove (indexMetaKey tableName id)) := drops_remove fun name hname key => by
    rw [bytes_eq_indexMetaKey_iff hplain, hash_eq_iff hn ht hname]
  have hentries : Drops names (fun name key => name = tableName ∧ ∃ values, key = .index id values)
      (removeBound (withIndexBound tableName id)) := by
    refine drops_removeBound ?_ fun name hname key => ?_
    · have hgt := isGT_bounds (writeKeyPrefix .index (hashBytes tableName) ++
        boundMinTag :: toLeBytes indexIdLen id.toNat)
      simpa [withIndexBound, indexPrefix] using hgt
    · rw [inRange_indexBound_iff hplain, hash_eq_iff hn ht hname]
  have hstats : Drops names (fun name key => name = tableName ∧ ∃ part, key = .statistics id part)
      (removeStatisticsMeta tableName id) := by
    refine drops_removeBound ?_ fun name hname key => ?_
    · have hgt := compare_append_left (statisticsPrefix tableName id) [] [boundMaxTag]
      rw [append_nil] at hgt
      rw [withStatisticsIndexBound, hgt]
      rfl
    · rw [inRange_statisticsIndexBound_iff hplain, hash_eq_iff hn ht hname]
  refine Drops.congr (hmeta.bind (hentries.bind hstats)) ?_
  intro name _ key
  cases key <;> simp [ofIndex]

include hn ht in
theorem drops_dropTable (hroot : (store.contents (rootKey tableName)).isSome = true)
    (ifExists : Bool) : ∃ store', dropTable tableName ifExists store = (.ok true, store') ∧
      Removes names (fun name key => name = tableName ∧ key.ty ≠ .view) store store' := by
  have hall : Drops names (fun name key => name = tableName ∧ key.ty ≠ .view) (do
      dropNameHash tableName
      dropData tableName
      removeBound (withColumnsBound tableName)
      removeBound (withIndexMetaBound tableName)
      remove (rootKey tableName)) := by
    have hhash := drops_outside hn ht (show hash.text = some _ from rfl) (by simp)
    have hroot := drops_outside hn ht (show root.text = some _ from rfl) (by simp)
    have hcolumns := drops_family hn ht (show column.tag = some _ from rfl)
    have hmetas := drops_family hn ht (show indexMeta.tag = some _ from rfl)
    rw [dropNameHash, hashKey, withColumnsBound, withIndexMetaBound, rootKey]
    refine Drops.congr
      (hhash.bind ((drops_dropData hn ht).bind (hcolumns.bind (hmetas.bind hroot)))) ?_
    intro name _ key
    cases key <;> simp [ty, isData]
  obtain ⟨store', hrun, hr⟩ := hall store
  refine ⟨store', ?_, hr⟩
  obtain ⟨_, s₁, h₁, hrun⟩ := bind_eq_ok.mp hrun
  obtain ⟨_, s₂, h₂, hrun⟩ := bind_eq_ok.mp hrun
  obtain ⟨_, s₃, h₃, hrun⟩ := bind_eq_ok.mp hrun
  obtain ⟨_, s₄, h₄, hrun⟩ := bind_eq_ok.mp hrun
  refine bind_eq_ok.mpr ⟨true, store, contains_eq_ok.mpr ⟨hroot, rfl⟩, ?_⟩
  rw [if_pos rfl]
  refine bind_eq_ok.mpr ⟨_, s₁, h₁, bind_eq_ok.mpr ⟨_, s₂, h₂,
    bind_eq_ok.mpr ⟨_, s₃, h₃, bind_eq_ok.mpr ⟨_, s₄, h₄,
      bind_eq_ok.mpr ⟨_, store', hrun, rfl⟩⟩⟩⟩⟩

section Load

variable [CatalogCodec] {table : TableCatalog}

/-- The records of a table's columns and indexes in the order of their keys. -/
def tableIter (tableName : String) (store : Store) : List KeyValue :=
  store.toList.filter fun entry =>
    inRange (.included (withTableBound tableName).1) (.included (withTableBound tableName).2) entry.1

def columnEntries (tableName : String) (store : Store) : List KeyValue :=
  (tableIter tableName store).filter fun entry =>
    (withTableBound tableName).1.isPrefixOf entry.1

def indexMetaEntries (tableName : String) (store : Store) : List KeyValue :=
  (tableIter tableName store).filter fun entry =>
    !(withTableBound tableName).1.isPrefixOf entry.1

theorem loadTable_eq_some : loadTable tableName store = .ok (some table) ↔
    ∃ columns indexes,
      (columnEntries tableName store).mapM (fun e => CatalogCodec.decodeColumn e.2) =
        .ok columns ∧
      (indexMetaEntries tableName store).mapM (fun e => CatalogCodec.decodeIndexMeta e.2) =
        .ok indexes ∧
      columns ≠ [] ∧ TableCatalog.reload tableName columns indexes = .ok table := by
  constructor
  · intro h
    obtain ⟨found, hcollect, h⟩ := Result.bind_eq_ok.mp h
    obtain ⟨iter, hiter, hcollect⟩ := Result.bind_eq_ok.mp hcollect
    obtain ⟨-, rfl⟩ := range_eq_ok.mp hiter
    obtain ⟨columns, indexes, hcols, hmetas, hfound⟩ := Result.bind_bind_eq_ok.mp hcollect
    cases hfound
    split at h
    · cases h
    · next hsome =>
      split at hsome
      · cases hsome
      · next hne =>
        cases hsome
        obtain ⟨loaded, hload, h⟩ := Result.bind_eq_ok.mp h
        cases h
        exact ⟨columns, indexes, hcols, hmetas, by simpa using hne, hload⟩
  · rintro ⟨columns, indexes, hcols, hmetas, hne, hload⟩
    have hinv : isInverted (.included (withTableBound tableName).1)
        (.included (withTableBound tableName).2) = false := by
      change (compare _ _).isGT = false
      simp only [withTableBound, bound, writeKeyPrefix, append_assoc]
      rw [compare_append_left]
      rfl
    have hiter : store.range _ _ = .ok (tableIter tableName store) :=
      range_eq_ok.mpr ⟨hinv, rfl⟩
    refine Result.bind_eq_ok.mpr ⟨some (columns, indexes), ?_, ?_⟩
    · refine Result.bind_eq_ok.mpr ⟨_, hiter, Result.bind_eq_ok.mpr ⟨columns, hcols,
        Result.bind_eq_ok.mpr ⟨indexes, hmetas, ?_⟩⟩⟩
      rw [if_neg (by simpa using hne)]
      rfl
    · exact Result.bind_eq_ok.mpr ⟨table, hload, rfl⟩

/-- A table can still be loaded after some of its index records were removed. -/
theorem loadTable_of_sub (h : loadTable tableName store = .ok (some table))
    (hsub : ∀ k v, s.contents k = some v → store.contents k = some v)
    (hcolumns : ∀ k, (withTableBound tableName).1 <+: k → s.contents k = store.contents k) :
    ∃ table', loadTable tableName s = .ok (some table') := by
  obtain ⟨columns, indexes, hcols, hmetas, hne, hload⟩ := loadTable_eq_some.mp h
  have hsame : columnEntries tableName s = columnEntries tableName store := by
    simp only [columnEntries, tableIter, filter_filter]
    let p := fun k => (withTableBound tableName).1.isPrefixOf k &&
      inRange (.included (withTableBound tableName).1) (.included (withTableBound tableName).2) k
    refine filter_toList_eq (p := p) (ascending_filter_toList (p := p))
      fun k v => ?_
    rw [mem_filter_toList (p := p)]
    refine and_congr_left fun hk => ?_
    have hk : (withTableBound tableName).1.isPrefixOf k = true := (Bool.and_eq_true_iff.mp hk).1
    change store.contents k = _ ↔ s.contents k = _
    rw [hcolumns k (List.isPrefixOf_iff_prefix.mp hk)]
  have hless : ∀ e ∈ indexMetaEntries tableName s, e ∈ indexMetaEntries tableName store := by
    rintro ⟨k, v⟩ he
    obtain ⟨he, hk⟩ := mem_filter.mp he
    obtain ⟨hv, hin⟩ := mem_filter_toList.mp he
    exact mem_filter.mpr ⟨mem_filter_toList.mpr ⟨hsub k v hv, hin⟩, hk⟩
  obtain ⟨indexes', hmetas'⟩ := Traverse.exists_mapM_iff.mpr fun e he =>
    Traverse.exists_mapM_iff.mp ⟨indexes, hmetas⟩ e (hless e he)
  refine ⟨⟨tableName, columns, indexes'⟩, loadTable_eq_some.mpr
    ⟨columns, indexes', by rw [hsame, hcols], hmetas', hne, ?_⟩⟩
  unfold TableCatalog.reload at hload ⊢
  split at hload
  · cases hload
  · next hid => rw [if_neg hid]

omit [CatalogCodec] in
include hn ht in
/-- What is removed of an index is no column. -/
theorem columns_of_removes
    (hkeys : ∀ k v, store.contents k = some v → ∃ name ∈ names, ∃ key : StoreKey,
      k = key.bytes name)
    (hr : Removes names (fun name key => name = tableName ∧ key.ofIndex id) store store')
    (k : Bytes) (hk : (withTableBound tableName).1 <+: k) :
    store'.contents k = store.contents k := by
  cases hv : store.contents k with
  | none =>
    cases hv' : store'.contents k with
    | none => rfl
    | some v =>
      rw [hr.sub k v hv'] at hv
      cases hv
  | some v =>
    obtain ⟨name, hname, key, rfl⟩ := hkeys k v hv
    have hpre : writeKeyPrefix .column (hashBytes tableName) <+: key.bytes name :=
      (prefix_append _ [boundMinTag]).trans hk
    obtain ⟨-, hty⟩ := ty_of_isPrefix (hn.plain _ ht)
      (show column.tag = some _ from rfl) hpre
    rw [← hv]
    refine hr.kept name hname key ?_
    rintro ⟨-, hof⟩
    cases key <;> simp_all [ty, ofIndex]

include hn ht in
theorem drops_dropIndex {indexName : String} {index : IndexMeta}
    (hkeys : ∀ k v, store.contents k = some v → ∃ name ∈ names, ∃ key : StoreKey,
      k = key.bytes name) (hload : loadTable tableName store = .ok (some table))
    (hfind : table.indexes.find? (fun index => index.name = indexName) = some index)
    (hp : index.isPrimary = false) (ifExists : Bool) :
    ∃ table' store', dropIndex tableName indexName ifExists store =
        (.ok (some (table', index.id)), store') ∧
      Removes names (fun name key => name = tableName ∧ key.ofIndex index.id) store store' := by
  obtain ⟨store', hrun, hr⟩ := drops_removeIndex hn ht index.id store
  have hcolumns := columns_of_removes hn ht hkeys hr
  obtain ⟨table', hload'⟩ := loadTable_of_sub hload hr.sub hcolumns
  refine ⟨table', store', ?_, hr⟩
  have hex : ∀ (s : Store) table, loadTable tableName s = .ok (some table) →
      inspect (loadExisting tableName) s = (.ok table, s) := by
    intro s table hl
    refine inspect_eq.mpr ⟨?_, rfl⟩
    rw [loadExisting, hl, Result.ok_bind]
    rfl
  rw [dropIndex, bind_eq_ok]
  refine ⟨table, store, hex store table hload, ?_⟩
  simp only [hfind, hp, Bool.false_eq_true, if_false]
  rw [bind_eq_ok]
  refine ⟨(), store', hrun, ?_⟩
  rw [bind_eq_ok]
  exact ⟨table', store', hex store' table' hload', pure_eq_ok.mpr ⟨rfl, rfl⟩⟩

/-- Dropping a table, an index or the data of a table removes all of its own keys and no other. -/
theorem drops_exactly (hn : Separate names) (ht : tableName ∈ names)
    (hkeys : ∀ k v, store.contents k = some v → ∃ name ∈ names, ∃ key : StoreKey,
      k = key.bytes name) :
    ((store.contents (rootKey tableName)).isSome = true → ∀ ifExists, ∃ store',
      dropTable tableName ifExists store = (.ok true, store') ∧
        Removes names (fun name key => name = tableName ∧ key.ty ≠ .view) store store') ∧
    (∀ table indexName index, loadTable tableName store = .ok (some table) →
      table.indexes.find? (fun index => index.name = indexName) = some index →
      index.isPrimary = false → ∀ ifExists, ∃ table' store',
        dropIndex tableName indexName ifExists store =
          (.ok (some (table', index.id)), store') ∧
        Removes names (fun name key => name = tableName ∧ key.ofIndex index.id) store store') ∧
    ∃ store', dropData tableName store = (.ok (), store') ∧
      Removes names (fun name key => name = tableName ∧ key.isData) store store' := by
  refine ⟨fun hroot => drops_dropTable hn ht hroot, ?_, drops_dropData hn ht store⟩
  intro table indexName index hload hfind hp
  exact drops_dropIndex hn ht hkeys hload hfind hp

end Load

/-- The columns of `CREATE TABLE t (id INTEGER PRIMARY KEY, a INTEGER UNIQUE)`. -/
def keyAndUnique (ids : List ColumnRelation) : List ColumnCatalog :=
  [⟨⟨"id", ids.getD 0 .none⟩, false, ⟨.integer, some 0, false, none⟩⟩,
    ⟨⟨"a", ids.getD 1 .none⟩, true, ⟨.integer, none, true, none⟩⟩]

def keyAndUniqueOf (tableName : String) : TableCatalog where
  name := tableName
  columns := keyAndUnique [.table 1 tableName false, .table 2 tableName false]
  indexes := [⟨0, [2], .integer, .integer, "uk_a_index", .unique⟩,
    ⟨1, [1], .integer, .integer, "pk_index", .primaryKey false⟩]

@[reducible] def keyAndUniqueCodec : CatalogCodec :=
  .listed ((keyAndUniqueOf "t").columns ++ (keyAndUniqueOf "u").columns)
    (keyAndUniqueOf "t").indexes

/-- A row, an index entry and a part of the statistics of a table. -/
def fill (tableName : String) (row : Bytes) : Exec Unit := do
  set (bytes tableName (.tuple [1])) row
  set (bytes tableName (.index 0 [5])) [1]
  set (bytes tableName (.statistics 0 .root)) row
  set (bytes tableName (.statistics 0 (.bucket 0))) row

def filled : Store :=
  let _ := keyAndUniqueCodec
  ((do
    let _ ← createTable "t" (keyAndUnique []) false
    let _ ← createTable "u" (keyAndUnique []) false
    fill "t" [7]
    fill "u" [8] : Exec Unit) ∅).2

/-- What `filled` holds under either name. -/
def filledKeys : List StoreKey :=
  [.root, .hash, .column 1, .column 2, .indexMeta 0, .indexMeta 1, .tuple [1], .index 0 [5],
    .statistics 0 .root, .statistics 0 (.bucket 0)]

theorem key_of_filled {k v : Bytes} (h : filled.contents k = some v) :
    ∃ name ∈ ({"t", "u"} : Set String), ∃ key : StoreKey, k = key.bytes name := by
  have hall : ∀ e ∈ filled.toList, ∃ name ∈ ["t", "u"], ∃ key ∈ filledKeys, e.1 = bytes name key := by
    decide
  obtain ⟨name, hname, key, -, hk⟩ := hall (k, v) (Std.TreeMap.mem_toList_iff_getElem?_eq_some.mpr h)
  exact ⟨name, by simpa using hname, key, hk⟩

theorem separate_filled : Separate {"t", "u"} := by
  refine ⟨?_, ?_⟩
  · rintro a (rfl | rfl) b (rfl | rfl) h
    all_goals first | rfl | exact absurd h (by decide)
  · rintro a (rfl | rfl)
    all_goals
      unfold PlainHash
      decide

/-- Of two tables with rows, indexes and statistics, one goes and the other stays. -/
theorem drops_exactly_filled :
    let _ := keyAndUniqueCodec
    (∃ store', dropTable "t" false filled = (.ok true, store') ∧ ∀ key ∈ filledKeys,
      store'.contents (bytes "t" key) = none ∧
        store'.contents (bytes "u" key) = filled.contents (bytes "u" key)) ∧
    (∃ table' store', dropIndex "t" "uk_a_index" false filled =
        (.ok (some (table', 0)), store') ∧
      (∀ key ∈ [.indexMeta 0, .index 0 [5], .statistics 0 .root, .statistics 0 (.bucket 0)],
        store'.contents (bytes "t" key) = none ∧
          store'.contents (bytes "u" key) = filled.contents (bytes "u" key)) ∧
      store'.contents (bytes "t" (.tuple [1])) = some [7]) ∧
    ∃ store', dropData "t" filled = (.ok (), store') ∧
      store'.contents (bytes "t" (.tuple [1])) = none ∧
      store'.contents (bytes "t" (.column 2)) = some [0] ∧
      store'.contents (bytes "u" (.tuple [1])) = some [8] := by
  intro _
  have hload : loadTable "t" filled = .ok (some (keyAndUniqueOf "t")) := rfl
  obtain ⟨htable, hindex, hdata⟩ :=
    drops_exactly separate_filled (Or.inl rfl) fun _ _ h => key_of_filled h
  have ht : "t" ∈ ({"t", "u"} : Set String) := Or.inl rfl
  have hu : "u" ∈ ({"t", "u"} : Set String) := Or.inr rfl
  have hne : ("u" : String) ≠ "t" := by decide
  refine ⟨?_, ?_, ?_⟩
  · obtain ⟨store', hrun, hr⟩ := htable rfl false
    refine ⟨store', hrun, fun key hkey => ⟨hr.gone "t" ht key ⟨rfl, ?_⟩, ?_⟩⟩
    · revert key
      decide
    · exact hr.kept "u" hu key fun h => hne h.1
  · obtain ⟨table', store', hrun, hr⟩ := hindex _ "uk_a_index" _ hload rfl rfl false
    refine ⟨table', store', hrun, fun key hkey => ⟨hr.gone "t" ht key ⟨rfl, ?_⟩, ?_⟩, ?_⟩
    · simp only [List.mem_cons, List.not_mem_nil, or_false] at hkey
      rcases hkey with rfl | rfl | rfl | rfl <;> rfl
    · exact hr.kept "u" hu key fun h => hne h.1
    · exact hr.kept "t" ht (.tuple [1]) fun h => h.2
  · obtain ⟨store', hrun, hr⟩ := hdata
    exact ⟨store', hrun, hr.gone "t" ht (.tuple [1]) ⟨rfl, trivial⟩,
      hr.kept "t" ht (.column 2) fun h => h.2, hr.kept "u" hu (.tuple [1]) fun h => hne h.1⟩

end Transaction

end KiteSQL
