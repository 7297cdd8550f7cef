import KiteSQL.Storage.IndexScan
import KiteSQL.Storage.IndexedTable

/-! Scans that read all their columns from the keys of an index. -/
namespace KiteSQL

open TableCodec ByteReader List Traverse DataValue Result TableCatalog

/-- The loop over the index columns: where each scanned column stands in the index, and whether one
of them stands elsewhere in the scan. -/
def fillSlots (columns : List ColumnCatalog) :
    Nat → List ColumnId → List Nat × Bool → List Nat × Bool
  | _, [], filled => filled
  | idx, columnId :: columnIds, (slots, needsMapping) =>
    match columns.findIdx? fun column => column.id = some columnId with
    | some scanIdx => fillSlots columns (idx + 1) columnIds
        (slots.set scanIdx idx, needsMapping || scanIdx ≠ idx)
    | none => fillSlots columns (idx + 1) columnIds (slots, needsMapping)

/-- How a column of the index is read: in full if it is scanned. -/
def coveredDeserializer (columns : List ColumnCatalog) (column : ColumnId × LogicalType) :
    Result TupleValueSerializableImpl :=
  match columns.find? fun scanned => scanned.id = some column.1 with
  | some scanned => scanned.datatype.serializable
  | none => column.2.skipSerializable

/-- What `PushPredicateIntoScan` notes for an index that holds all scanned columns. -/
def IndexMeta.cover (index : IndexMeta) (columns : List ColumnCatalog) :
    Result (Option (List TupleValueSerializableImpl) × Option (List Nat)) := do
  let (slots, needsMapping) :=
    fillSlots columns 0 index.columnIds (List.replicate columns.length usizeMax, false)
  let deserializers ←
    (index.columnIds.zip (indexTypes index.valueTy)).mapM (coveredDeserializer columns)
  if slots.all (· ≠ usizeMax) then
    return (some deserializers, if needsMapping then some slots else none)
  else return (none, none)

section Slots

variable {columns : List ColumnCatalog} {columnIds : List ColumnId} {column : ColumnCatalog}
  {slots : List Nat} {needsMapping : Bool} {idx i m : Nat} {columnId : ColumnId}

theorem findIdx?_eq_some (hids : (columns.map ColumnCatalog.id).Nodup) :
    (columns.findIdx? fun column => column.id = some columnId) = some i ↔
      ∃ column, columns[i]? = some column ∧ column.id = some columnId := by
  rw [List.findIdx?_eq_some_iff_getElem]
  constructor
  · rintro ⟨hi, hid, -⟩
    exact ⟨columns[i], List.getElem?_eq_getElem hi, by simpa using hid⟩
  · rintro ⟨column, hcolumn, hid⟩
    obtain ⟨hi, rfl⟩ := List.getElem?_eq_some_iff.mp hcolumn
    refine ⟨hi, by simpa using hid, fun j hj hsame => ?_⟩
    have hne := List.pairwise_iff_getElem.mp hids j i (by simp; omega) (by simpa) hj
    simp only [List.getElem_map] at hne
    exact hne ((of_decide_eq_true hsame).trans hid.symm)

/-- A column of the index that the scan has at another place. -/
def Displaced (columns : List ColumnCatalog) (columnIds : List ColumnId) (idx : Nat) : Prop :=
  ∃ (j : Nat) (columnId : ColumnId) (i : Nat) (column : ColumnCatalog),
    columnIds[j]? = some columnId ∧ columns[i]? = some column ∧ column.id = some columnId ∧
    i ≠ idx + j

theorem displaced_cons : Displaced columns (columnId :: columnIds) idx ↔
    (∃ (i : Nat) (column : ColumnCatalog), columns[i]? = some column ∧
      column.id = some columnId ∧ i ≠ idx) ∨
      Displaced columns columnIds (idx + 1) := by
  constructor
  · rintro ⟨j, columnId', i, column, hj, hi, hid, hne⟩
    cases j with
    | zero =>
      cases hj
      exact .inl ⟨i, column, hi, hid, hne⟩
    | succ j => exact .inr ⟨j, columnId', i, column, hj, hi, hid, by omega⟩
  · rintro (⟨i, column, hi, hid, hne⟩ | ⟨j, columnId', i, column, hj, hi, hid, hne⟩)
    · exact ⟨0, columnId, i, column, rfl, hi, hid, hne⟩
    · exact ⟨j + 1, columnId', i, column, hj, hi, hid, by omega⟩

/-- Every scanned column of the index gets a place where the index has it, and the mapping is needed
if one of these places is not that of the scan. -/
theorem fillSlots_spec (hids : (columns.map ColumnCatalog.id).Nodup)
    (hlen : slots.length = columns.length) :
    let filled := fillSlots columns idx columnIds (slots, needsMapping)
    filled.1.length = columns.length ∧
      (filled.2 = true ↔ needsMapping = true ∨ Displaced columns columnIds idx) ∧
      ∀ (i : Nat) (column : ColumnCatalog), columns[i]? = some column →
        (∃ j : Nat, columnIds[j]? = column.id ∧ j < columnIds.length ∧
          filled.1[i]? = some (idx + j)) ∨
        (∀ columnId ∈ columnIds, column.id ≠ some columnId) ∧ filled.1[i]? = slots[i]? := by
  induction columnIds generalizing idx slots needsMapping with
  | nil =>
    refine ⟨hlen, ?_, fun i column _ => .inr ⟨by simp, rfl⟩⟩
    simp [fillSlots, Displaced]
  | cons columnId columnIds ih =>
    rw [displaced_cons]
    cases hfind : columns.findIdx? fun column : ColumnCatalog => column.id = some columnId with
    | some scanIdx =>
      obtain ⟨found, hfound, hid⟩ := (findIdx?_eq_some hids).mp hfind
      obtain ⟨hlen', hneeds, hslots⟩ :=
        @ih (slots.set scanIdx idx) (needsMapping || scanIdx ≠ idx) (idx + 1) (by simpa using hlen)
      simp only [fillSlots, hfind]
      refine ⟨hlen', hneeds.trans ?_, fun i column hcolumn => ?_⟩
      · rw [Bool.or_eq_true, decide_eq_true_eq, or_assoc]
        refine or_congr_right (or_congr_left ⟨fun hne => ⟨_, _, hfound, hid, hne⟩, ?_⟩)
        rintro ⟨i, column, hi, hid', hne⟩
        have hsame := (findIdx?_eq_some hids).mpr ⟨column, hi, hid'⟩
        rw [hfind] at hsame
        cases hsame
        exact hne
      · rcases hslots i column hcolumn with ⟨j, hj, hlt, hget⟩ | ⟨hnone, hget⟩
        · exact .inl ⟨j + 1, hj, by simpa using hlt, by rw [hget]; congr 1; omega⟩
        · by_cases hi : i = scanIdx
          · subst hi
            rw [hfound] at hcolumn
            cases hcolumn
            have hlt : i < slots.length := by
              rw [hlen]
              exact (List.getElem?_eq_some_iff.mp hfound).1
            exact .inl ⟨0, hid.symm, by simp, by rw [hget, List.getElem?_set_self hlt]; rfl⟩
          · rw [getElem?_set_ne (Ne.symm hi)] at hget
            refine .inr ⟨?_, hget⟩
            rw [forall_mem_cons]
            refine ⟨fun hsame => hi ?_, hnone⟩
            have hother := (findIdx?_eq_some hids).mpr ⟨column, hcolumn, hsame⟩
            rw [hfind] at hother
            exact (Option.some.inj hother).symm
    | none =>
      have hno : ∀ (i : Nat) (column : ColumnCatalog), columns[i]? = some column → column.id ≠ some columnId := by
        intro i column hcolumn hsame
        rw [(findIdx?_eq_some hids).mpr ⟨column, hcolumn, hsame⟩] at hfind
        cases hfind
      obtain ⟨hlen', hneeds, hslots⟩ := @ih slots needsMapping (idx + 1) hlen
      simp only [fillSlots, hfind]
      refine ⟨hlen', hneeds.trans (or_congr_right (or_iff_right ?_).symm), fun i column hc => ?_⟩
      · rintro ⟨i, column, hcolumn, hid, -⟩
        exact hno i column hcolumn hid
      · rcases hslots i column hc with ⟨j, hj, hlt, hget⟩ | ⟨hnone, hget⟩
        · exact .inl ⟨j + 1, hj, by simpa using hlt, by rw [hget]; congr 1; omega⟩
        · exact .inr ⟨forall_mem_cons.mpr ⟨hno i column hc, hnone⟩, hget⟩

end Slots

section Mapping

variable {mapping : IndexKeyMapping} {ts : List LogicalType} {vs ws values : List DataValue}
  {slots targets : List Nat} {i k m n : Nat}

theorem foldl_set_spec (hnodup : slots.Nodup) (hlt : ∀ a ∈ slots, a < targets.length) :
    let filled := (slots.zipIdx k).foldl (fun slots (indexIdx, scanIdx) =>
      slots.set indexIdx scanIdx) targets
    (∀ i, slots[i]? = some m → filled[m]? = some (k + i)) ∧ (m ∉ slots → filled[m]? = targets[m]?) := by
  induction slots generalizing k targets with
  | nil => simp
  | cons a slots ih =>
    rw [forall_mem_cons] at hlt
    obtain ⟨ha, hnodup⟩ := nodup_cons.mp hnodup
    obtain ⟨hin, hout⟩ := @ih (targets.set a k) (k + 1) hnodup (by simpa using hlt.2)
    refine ⟨fun i hi => ?_, fun hm => ?_⟩
    · cases i with
      | zero =>
        cases hi
        exact (hout ha).trans (getElem?_set_self hlt.1)
      | succ i => exact (hin i hi).trans (congrArg some (by omega))
    · rw [mem_cons, not_or] at hm
      exact (hout hm.2).trans (getElem?_set_ne (Ne.symm hm.1))

/-- The mapping sends a place of the index to the column of the scan that stands there. -/
theorem scanIndex_tupleMapping (hnodup : slots.Nodup) (hlt : ∀ a ∈ slots, a < n)
    (hmax : slots.length ≤ usizeMax) :
    (tupleMapping slots n).scanIndex m = some i ↔ slots[i]? = some m := by
  obtain ⟨hin, hout⟩ := @foldl_set_spec slots (replicate n usizeMax) 0 m hnodup
    (by simpa using hlt)
  have hread : (tupleMapping slots n).scanIndex m =
      ((slots.zipIdx.foldl (fun slots (indexIdx, scanIdx) => slots.set indexIdx scanIdx)
        (replicate n usizeMax))[m]?).bind fun slot =>
          if slot = usizeMax then none else some slot := rfl
  rw [hread]
  constructor
  · intro h
    by_cases hm : m ∈ slots
    · obtain ⟨j, hj⟩ := mem_iff_getElem?.mp hm
      rw [hin j hj, Option.bind_some, Nat.zero_add] at h
      split at h
      · cases h
      · cases h
        exact hj
    · rw [hout hm, getElem?_replicate] at h
      split at h <;> simp at h
  · intro hi
    have hlt : i < slots.length := (List.getElem?_eq_some_iff.mp hi).1
    rw [hin i hi, Option.bind_some, Nat.zero_add, if_neg (by omega)]

/-- The decoded values at the places that the mapping gives them. -/
def place (mapping : IndexKeyMapping) : Nat → List DataValue → List DataValue → List DataValue
  | _, [], values => values
  | k, w :: ws, values =>
    place mapping (k + 1) ws ((mapping.scanIndex k).elim values (values.set · w))

theorem decodeIndexValues_eq (h : ∀ m i, mapping.scanIndex m = some i → i < values.length) :
    decodeIndexValues mapping ts k values =
      (memcomparableDecodeAll ts >>= fun ws => pure (place mapping k ws values)) := by
  induction ts generalizing k values with
  | nil =>
    funext s
    simp [decodeIndexValues, memcomparableDecodeAll, place]
  | cons t ts ih =>
    simp only [decodeIndexValues, memcomparableDecodeAll, bind_assoc, pure_bind, place]
    congr 1
    funext w
    cases hm : mapping.scanIndex k with
    | none => exact ih h
    | some i =>
      dsimp only
      rw [if_pos (h k i hm)]
      exact ih fun m j hj => by simpa using h m j hj

theorem length_place : (place mapping k ws values).length = values.length := by
  induction ws generalizing k values with
  | nil => rfl
  | cons w ws ih =>
    rw [place, ih]
    cases mapping.scanIndex k <;> simp

theorem getElem?_place_of_lt (h : ∀ m, mapping.scanIndex m = some i → m < k) :
    (place mapping k ws values)[i]? = values[i]? := by
  induction ws generalizing k values with
  | nil => rfl
  | cons w ws ih =>
    rw [place, ih fun m hm => (h m hm).trans (Nat.lt_succ_self k)]
    cases hk : mapping.scanIndex k with
    | none => rfl
    | some j =>
      refine getElem?_set_ne fun hj => ?_
      subst hj
      exact absurd (h k hk) (Nat.lt_irrefl k)

theorem getElem?_place (huniq : ∀ m', mapping.scanIndex m' = some i → m' = k + m)
    (hm : mapping.scanIndex (k + m) = some i) (hi : i < values.length) (hlt : m < ws.length) :
    (place mapping k ws values)[i]? = ws[m]? := by
  induction ws generalizing k m values with
  | nil => cases hlt
  | cons w ws ih =>
    cases m with
    | zero =>
      rw [place, getElem?_place_of_lt fun m' h => by rw [huniq m' h]; omega]
      rw [Nat.add_zero] at hm
      rw [hm, Option.elim_some, getElem?_set_self hi]
      rfl
    | succ m =>
      rw [← Nat.add_assoc, Nat.add_right_comm] at huniq hm
      refine ih huniq hm ?_ (by simpa using hlt)
      cases mapping.scanIndex k <;> simpa using hi

/-- The values are read back one by one. -/
theorem reads_each (h : List.Forall₂ DataValue.Fits vs ts) :
    ∃ a ws, memcomparableEncodeAll vs = .ok a ∧
      Reads (memcomparableDecodeAll ts) a ws ∧
      List.Forall₂ (fun v w => w.eq v = !v.hasPositiveNan) vs ws := by
  induction h with
  | nil => exact ⟨[], [], rfl, fun _ => rfl, .nil⟩
  | cons hv _ ih =>
    obtain ⟨a, w, ha, hr, hw⟩ := hv.reads
    obtain ⟨b, ws, hb, hrs, hws⟩ := ih
    exact ⟨a ++ b, w :: ws, memcomparableEncodeAll_cons ha hb,
      hr.bind (hrs.bind_pure _), .cons hw.eq_iff hws⟩

end Mapping

/-- The value of a row in a column of its table. -/
def TableCatalog.lookedUp (table : TableCatalog) (values : List DataValue)
    (column : ColumnCatalog) : Option DataValue :=
  (table.columns.findIdx? fun c => c.id = column.id).bind (values[·]?)

/-- The row of a scan has the scanned columns of a row of the table. -/
def TableCatalog.Shows (table : TableCatalog) (columns : List ColumnCatalog) (tuple : Tuple)
    (values : List DataValue) : Prop :=
  List.Forall₂ (fun w column => ∃ v, table.lookedUp values column = some v ∧ w.eq v = true)
    tuple.values columns

/-- The entry that an index has for a row. -/
def IndexMeta.EntryOf [DecimalLayout] (index : IndexMeta) (table : TableCatalog)
    (values : List DataValue) (entry : KeyValue) : Prop :=
  ∃ ws tupleId, index.rowValues table values = .ok ws ∧
    List.Forall₂ DataValue.Fits ws (indexTypes index.valueTy) ∧
    withIndex table.name ⟨index.id, ws, index.ty⟩ (some tupleId) = .ok entry

/-- The scan has all columns of the index, or one of them at another place than the index, and no
scanned value is a NaN whose sign bit is clear. -/
def IndexMeta.Covers (index : IndexMeta) (table : TableCatalog) (columns : List ColumnCatalog)
    (values : List DataValue) : Prop :=
  (columns.length = index.columnIds.length ∨ Displaced columns index.columnIds 0) ∧
    ∀ column ∈ columns, ∀ v, table.lookedUp values column = some v → v.hasPositiveNan = false

/-- The scanned columns are different columns of the index. -/
structure IndexMeta.HasColumns (index : IndexMeta) (columns : List ColumnCatalog) : Prop where
  nodup : (columns.map ColumnCatalog.id).Nodup
  mem : ∀ column ∈ columns, ∃ columnId ∈ index.columnIds, column.id = some columnId
  length : index.columnIds.length < usizeMax

section Lookup

variable {table : TableCatalog} {index : IndexMeta} {columns : List ColumnCatalog}
  {column : ColumnCatalog} {values ws : List DataValue} {j : Nat}

theorem lookedUp_eq (h : index.rowValues table values = .ok ws)
    (hj : index.columnIds[j]? = column.id) (hlt : j < index.columnIds.length) :
    ∃ v, table.lookedUp values column = some v ∧ ws[j]? = some v := by
  obtain ⟨exprs, he, hw⟩ := bind_eq_ok.mp h
  obtain ⟨position, hposition, hfind⟩ :=
    exists_getElem?_of_forall₂ (forall₂_of_mapM he) (getElem?_eq_getElem hlt)
  obtain ⟨v, hv, hat⟩ :=
    exists_getElem?_of_forall₂ (forall₂_of_mapM hw) hposition
  refine ⟨v, ?_, hv⟩
  rw [getElem?_eq_getElem hlt] at hj
  rw [lookedUp, ← hj]
  split at hfind
  · next found hfound =>
    cases hfind
    rw [hfound, Option.bind_some]
    exact valueAt_eq_ok.mp hat
  · cases hfind

variable {cover : Option (List TupleValueSerializableImpl) × Option (List Nat)}

/-- An index that has all scanned columns covers the scan; the slots are the places of these columns
in the index. -/
theorem IndexMeta.cover_spec (hs : index.HasColumns columns) (h : index.cover columns = .ok cover) :
    ∃ ds slots, cover.1 = some ds ∧ slots.length = columns.length ∧
      (∀ (i : Nat) (column : ColumnCatalog), columns[i]? = some column →
        ∃ j, index.columnIds[j]? = column.id ∧ j < index.columnIds.length ∧ slots[i]? = some j) ∧
      (Displaced columns index.columnIds 0 ∧ cover.2 = some slots ∨
        ¬ Displaced columns index.columnIds 0 ∧ cover.2 = none) := by
  obtain ⟨hlen, hneeds, hslots⟩ := @fillSlots_spec columns index.columnIds
    (replicate columns.length usizeMax) false 0 hs.nodup (by simp)
  obtain ⟨ds, -, h⟩ := bind_eq_ok.mp h
  have hplace : ∀ (i : Nat) (column : ColumnCatalog), columns[i]? = some column →
      ∃ j, index.columnIds[j]? = column.id ∧ j < index.columnIds.length ∧
        (fillSlots columns 0 index.columnIds
          (replicate columns.length usizeMax, false)).1[i]? = some j := by
    intro i column hcolumn
    rcases hslots i column hcolumn with ⟨j, hj, hlt, hget⟩ | ⟨hnone, -⟩
    · exact ⟨j, hj, hlt, by rw [hget, Nat.zero_add]⟩
    · obtain ⟨columnId, hmem, hid⟩ := hs.mem column (mem_of_getElem? hcolumn)
      exact absurd hid (hnone columnId hmem)
  have hall : ((fillSlots columns 0 index.columnIds
      (replicate columns.length usizeMax, false)).1.all (· ≠ usizeMax)) = true := by
    rw [all_eq_true]
    intro slot hslot
    obtain ⟨i, hi⟩ := mem_iff_getElem?.mp hslot
    have hlt : i < columns.length := by
      rw [← hlen]
      exact (List.getElem?_eq_some_iff.mp hi).1
    obtain ⟨j, -, hj, hget⟩ := hplace i _ (List.getElem?_eq_getElem hlt)
    rw [hi] at hget
    cases hget
    have hmax := hs.length
    exact decide_eq_true (by omega)
  rw [if_pos hall] at h
  cases h
  refine ⟨ds, _, rfl, hlen, hplace, ?_⟩
  by_cases hd : Displaced columns index.columnIds 0
  · exact .inl ⟨hd, if_pos (hneeds.mpr (.inr hd))⟩
  · refine .inr ⟨hd, if_neg fun hn => ?_⟩
    exact (hneeds.mp hn).elim (fun hf => by cases hf) hd

theorem readByIndex_covered {store : Store} {bounds : IterBounds} {ranges : List Range}
    {withPk : Bool} {ds : List TupleValueSerializableImpl} {mapping : Option (List Nat)}
    {it : IndexIter} (hsecondary : index.isPrimary = false)
    (h : store.readByIndex table bounds columns index ranges withPk (some ds) mapping = .ok it) :
    it.inner = .covered ∧ it.params.indexMeta = index ∧ it.params.coverMapping =
      mapping.map fun slots => tupleMapping slots (indexTypes index.valueTy).length := by
  obtain ⟨⟨inner, ds', coverMapping⟩, himpl, h⟩ := bind_eq_ok.mp h
  cases h
  unfold indexImpl at himpl
  split at himpl
  · cases himpl
    exact ⟨rfl, rfl, rfl⟩
  · cases himpl
    exact ⟨rfl, rfl, rfl⟩
  · cases himpl
    exact ⟨rfl, rfl, rfl⟩
  · next hnone => cases hty : index.ty <;> simp_all [IndexMeta.isPrimary]

variable [DecimalLayout] {params : IndexImplParams} {entry : KeyValue}

/-- What the key of an entry gives: as many values as the index or the scan has columns, and for each
scanned column the value that was encoded. -/
theorem decodeIndexKey_covered (hs : index.HasColumns columns) (hcover : index.cover columns = .ok cover)
    (hentry : index.EntryOf table values entry) :
    ∃ out, decodeIndexKey entry.1 index.valueTy ((cover.2.map fun slots =>
        tupleMapping slots (indexTypes index.valueTy).length).getD orderedMapping) = .ok out ∧
      (out.length = columns.length ↔
        columns.length = index.columnIds.length ∨ Displaced columns index.columnIds 0) ∧
      ∀ (i : Nat) (column : ColumnCatalog), columns[i]? = some column →
        ∃ v w, table.lookedUp values column = some v ∧ out[i]? = some w ∧
          w.eq v = !v.hasPositiveNan := by
  obtain ⟨vs, tupleId, hvs, hfits, hentry⟩ := hentry
  obtain ⟨a, b, ha, -, hkey, -⟩ := withIndex_eq_ok hentry
  obtain ⟨a', ws, ha', hread, hws⟩ := reads_each hfits
  obtain rfl : a = a' := Except.ok.inj (ha.symm.trans ha')
  obtain ⟨ds, slots, -, hlen, hslots, hmapping⟩ := index.cover_spec hs hcover
  have hcount : ws.length = index.columnIds.length := by
    obtain ⟨exprs, he, hvs⟩ := bind_eq_ok.mp hvs
    rw [← hws.length_eq, length_of_mapM hvs, length_of_mapM he]
  have hvalue : ∀ (i : Nat) (column : ColumnCatalog), columns[i]? = some column →
      ∃ j v w, slots[i]? = some j ∧ index.columnIds[j]? = column.id ∧
        j < index.columnIds.length ∧ table.lookedUp values column = some v ∧ ws[j]? = some w ∧
        w.eq v = !v.hasPositiveNan := by
    intro i column hcolumn
    obtain ⟨j, hj, hlt, hslot⟩ := hslots i column hcolumn
    obtain ⟨v, hv, hvj⟩ := lookedUp_eq hvs hj hlt
    obtain ⟨w, hw, heq⟩ := exists_getElem?_of_forall₂ hws hvj
    exact ⟨j, v, w, hslot, hj, hlt, hv, hw, heq⟩
  have hkey' : ∀ mapping, decodeIndexKey entry.1 index.valueTy mapping =
      runReader (decodeIndexValues mapping (indexTypes index.valueTy) 0 (replicate
        (mapping.targetLen (indexTypes index.valueTy).length) .null)) (a ++ b) := by
    intro mapping
    rw [hkey, decodeIndexKey, sliceFrom_append (length_indexPrefix _ _), ok_bind]
  rcases hmapping with ⟨hd, hmapping⟩ | ⟨hd, hmapping⟩
  · have hnodup : slots.Nodup := by
      have hids := hs.nodup
      rw [nodup_iff_getElem?_ne_getElem?] at hids ⊢
      intro i i' hlt hlt' hsame
      rw [hlen] at hlt'
      obtain ⟨j, -, -, hj, hid, -⟩ := hvalue i _ (getElem?_eq_getElem (hlt.trans hlt'))
      obtain ⟨j', -, -, hj', hid', -⟩ := hvalue i' _ (getElem?_eq_getElem hlt')
      rw [hj, hj', Option.some.injEq] at hsame
      refine hids i i' hlt (by simpa using hlt') ?_
      rw [getElem?_map, getElem?_map, getElem?_eq_getElem (hlt.trans hlt'),
        getElem?_eq_getElem hlt', Option.map_some, Option.map_some, ← hid, ← hid', hsame]
    have hbound : ∀ slot ∈ slots, slot < index.columnIds.length := by
      intro slot hslot
      obtain ⟨i, hi⟩ := List.mem_iff_getElem?.mp hslot
      have hlt := (List.getElem?_eq_some_iff.mp hi).1
      rw [hlen] at hlt
      obtain ⟨j, -, -, hj, -, hjlt, -⟩ := hvalue i _ (getElem?_eq_getElem hlt)
      rw [hi] at hj
      cases hj
      exact hjlt
    have hfew : slots.length ≤ index.columnIds.length := by
      have hsub := subperm_of_subset hnodup fun slot h => mem_range.mpr (hbound slot h)
      simpa using hsub.length_le
    have hmax := hs.length
    have hscan : ∀ m i, (tupleMapping slots (indexTypes index.valueTy).length).scanIndex m = some i ↔
        slots[i]? = some m := by
      intro m i
      refine scanIndex_tupleMapping hnodup (fun slot h => ?_) (by omega)
      rw [← hfits.length_eq, hws.length_eq, hcount]
      exact hbound slot h
    refine ⟨place (tupleMapping slots (indexTypes index.valueTy).length) 0 ws
      (replicate columns.length .null), ?_, ?_, fun i column hcolumn => ?_⟩
    · rw [hmapping, Option.map_some, Option.getD_some, hkey']
      have htarget : (tupleMapping slots (indexTypes index.valueTy).length).targetLen
          (indexTypes index.valueTy).length = columns.length := hlen
      rw [htarget, decodeIndexValues_eq]
      · exact runReader_of_reads (hread.bind_pure _) b
      · intro m i hm
        rw [List.length_replicate, ← hlen]
        exact (List.getElem?_eq_some_iff.mp ((hscan m i).mp hm)).1
    · simp [length_place, hd]
    · obtain ⟨j, v, w, hj, -, hlt, hv, hw, heq⟩ := hvalue i column hcolumn
      refine ⟨v, w, hv, ?_, heq⟩
      rw [getElem?_place, hw]
      · intro m hm
        rw [(hscan m i).mp hm] at hj
        rw [Nat.zero_add]
        exact Option.some.inj hj
      · rw [Nat.zero_add]
        exact (hscan j i).mpr hj
      · simpa using (List.getElem?_eq_some_iff.mp hcolumn).1
      · omega
  · refine ⟨ws, ?_, by simp [hd, hcount, eq_comm], fun i column hcolumn => ?_⟩
    · rw [hmapping, hkey]
      exact decodeIndexKey_append hread
    · obtain ⟨j, v, w, -, hj, hlt, hv, hw, heq⟩ := hvalue i column hcolumn
      have hij : i = j := by
        by_contra hne
        obtain ⟨columnId, hid⟩ := Option.isSome_iff_exists.mp
          (show (column.id).isSome = true by rw [← hj, getElem?_eq_getElem hlt]; rfl)
        exact hd ⟨j, columnId, i, column, hj.trans hid, hcolumn, hid, by omega⟩
      exact ⟨v, w, hv, hij ▸ hw, heq⟩

/-- A covered row shows its row of the table exactly if the index covers it. -/
theorem indexLookup_covered (hs : index.HasColumns columns) (hcover : index.cover columns = .ok cover)
    (hmeta : params.indexMeta = index) (hmapping : params.coverMapping =
      cover.2.map fun slots => tupleMapping slots (indexTypes index.valueTy).length)
    (hentry : index.EntryOf table values entry) :
    ∃ tuple, params.indexLookup .covered entry = .ok tuple ∧
      (table.Shows columns tuple values ↔ index.Covers table columns values) := by
  obtain ⟨out, hout, hlen, hvalues⟩ := decodeIndexKey_covered hs hcover hentry
  obtain ⟨vs, tupleId, -, -, hentry⟩ := hentry
  obtain ⟨-, -, -, -, -, hvalue⟩ := withIndex_eq_ok hentry
  have hid := runReader_of_reads (reads_decodeReferenceValue hvalue) []
  rw [List.append_nil] at hid
  refine ⟨⟨if params.withPk then some tupleId else none, out⟩, ?_, ?_⟩
  · rw [IndexImplParams.indexLookup, hmeta, hmapping, hout, ok_bind]
    cases params.withPk with
    | false => rfl
    | true =>
      rw [if_pos rfl, decodeIndex, hid]
      rfl
  · constructor
    · intro h
      refine ⟨hlen.mp h.length_eq, fun column hmem v hv => ?_⟩
      obtain ⟨i, hi⟩ := List.mem_iff_getElem?.mp hmem
      obtain ⟨v', w, hv', hw, heq⟩ := hvalues i column hi
      obtain ⟨column', hi', v'', hv'', htrue⟩ := exists_getElem?_of_forall₂ h hw
      rw [hi] at hi'
      cases hi'
      rw [hv] at hv' hv''
      cases hv'
      cases hv''
      rw [htrue] at heq
      simpa using heq.symm
    · rintro ⟨hall, hnan⟩
      refine List.forall₂_iff_get.mpr ⟨hlen.mpr hall, fun i hlt hlt' => ?_⟩
      obtain ⟨v, w, hv, hw, heq⟩ := hvalues i _ (List.getElem?_eq_getElem hlt')
      obtain ⟨_, hget⟩ := List.getElem?_eq_some_iff.mp hw
      refine ⟨v, hv, ?_⟩
      rw [List.get_eq_getElem, hget, heq, hnan _ (List.getElem_mem hlt') v hv]
      rfl

/-- Each range of a covered scan returns the scanned columns of the rows whose entries it visits
exactly if the index covers these rows. -/
theorem covered_scan_iff {store : Store} {bounds : IterBounds} {ranges : List Range}
    {withPk : Bool} {it : IndexIter} {range : Range} {rows : List (List DataValue)}
    {entries : List KeyValue} (hsecondary : index.isPrimary = false)
    (hs : index.HasColumns columns) (hcover : index.cover columns = .ok cover)
    (hread : store.readByIndex table bounds columns index ranges withPk cover.1 cover.2 = .ok it)
    (hopen : IndexIter.Opens it.params it.inner range entries)
    (hentries : List.Forall₂ (index.EntryOf table) rows entries) :
    ∃ tuples, IndexIter.selected it.params it.inner range = .ok tuples ∧
      (List.Forall₂ (table.Shows columns) tuples rows ↔
        ∀ values ∈ rows, index.Covers table columns values) := by
  obtain ⟨ds, slots, hds, -⟩ := index.cover_spec hs hcover
  rw [hds] at hread
  obtain ⟨hinner, hmeta, hmapping⟩ := readByIndex_covered hsecondary hread
  have hall : ∃ tuples, entries.mapM (it.params.indexLookup it.inner) = .ok tuples ∧
      (List.Forall₂ (table.Shows columns) tuples rows ↔
        ∀ values ∈ rows, index.Covers table columns values) := by
    clear hopen
    induction hentries with
    | nil => exact ⟨[], rfl, by simp⟩
    | cons hentry _ ih =>
      obtain ⟨tuples, htuples, hiff⟩ := ih
      obtain ⟨tuple, htuple, hiff'⟩ :=
        indexLookup_covered hs hcover hmeta hmapping hentry
      rw [← hinner] at htuple
      refine ⟨tuple :: tuples, mapM_cons_eq_ok.mpr ⟨_, _, htuple, htuples, rfl⟩, ?_⟩
      rw [forall₂_cons, forall_mem_cons, hiff, hiff']
  obtain ⟨tuples, htuples, hiff⟩ := hall
  refine ⟨tuples, ?_, hiff⟩
  cases range with
  | scope min max =>
    rw [IndexIter.selected, show it.params.openScope it.inner min max = .ok entries from hopen]
    exact htuples
  | eq value =>
    rw [IndexIter.selected, show it.params.eqToRes it.inner value = .ok (.scope entries) from hopen]
    exact htuples
  | dummy => exact hopen.elim
  | sortedRanges ranges => exact hopen.elim

end Lookup

/-- An index over the last two of the three columns, in the other order. -/
def lastColumns : IndexMeta :=
  ⟨1, [3, 2], .integer, .tuple [.integer, .integer], "cb", .composite⟩

/-- A table with one row and its entry in the index. -/
def indexedRow : Store :=
  match @Store.addIndex .flagsFirst (oneRow [.int32 1, .int32 2, .int32 3]) "t"
    ⟨1, [.int32 3, .int32 2], .composite⟩ (.int32 1) with
  | .ok store => store
  | .error _ => ∅

theorem covered_scan_iff_swapped :
    let _ := DecimalLayout.flagsFirst
    ∃ it tuples, indexedRow.readByIndex threeColumns ⟨0, none⟩ (threeColumns.columns.drop 1)
        lastColumns [.scope .unbounded .unbounded] true (some [.int32, .int32]) (some [1, 0]) =
          .ok it ∧
      IndexIter.selected it.params it.inner (.scope .unbounded .unbounded) = .ok tuples ∧
      List.Forall₂ (threeColumns.Shows (threeColumns.columns.drop 1)) tuples
        [[.int32 1, .int32 2, .int32 3]] := by
  let _ := DecimalLayout.flagsFirst
  obtain ⟨tuples, htuples, hiff⟩ := @covered_scan_iff threeColumns lastColumns
    (threeColumns.columns.drop 1) (some [.int32, .int32], some [1, 0]) .flagsFirst indexedRow
    ⟨0, none⟩ [.scope .unbounded .unbounded] true _ (.scope .unbounded .unbounded)
    [[.int32 1, .int32 2, .int32 3]] _ rfl ⟨by decide, by decide, by decide⟩ rfl rfl rfl
    (.cons ⟨[.int32 3, .int32 2], .int32 1, rfl, .cons (.int32 3) (.cons (.int32 2) .nil), rfl⟩ .nil)
  refine ⟨_, tuples, rfl, htuples, hiff.mpr ?_⟩
  rw [forall_mem_singleton]
  refine ⟨.inl rfl, ?_⟩
  simp only [drop_succ_cons, drop_zero, threeColumns, forall_mem_cons]
  exact ⟨fun v hv => by cases hv; rfl, fun v hv => by cases hv; rfl, by simp⟩

/-- A scan of the first column of the index returns both. -/
theorem covered_scan_first_column :
    let _ := DecimalLayout.flagsFirst
    ∃ it, lastColumns.cover (threeColumns.columns.drop 2) =
        .ok (some [.int32, .skipFixed 4], none) ∧
      indexedRow.readByIndex threeColumns ⟨0, none⟩ (threeColumns.columns.drop 2) lastColumns
        [.scope .unbounded .unbounded] false (some [.int32, .skipFixed 4]) none = .ok it ∧
      IndexIter.selected it.params it.inner (.scope .unbounded .unbounded) =
        .ok [⟨none, [.int32 3, .int32 2]⟩] :=
  ⟨_, rfl, rfl, rfl⟩

end KiteSQL
