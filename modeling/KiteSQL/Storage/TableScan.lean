import KiteSQL.Lib.Iterate
import KiteSQL.Storage.Transaction

/-! What a table scan that asks for some of the columns produces. -/
namespace KiteSQL

open ByteReader DataValue Tuple TableCatalog TupleIter List ColumnCatalog Result

/-- The stored value of a column of the row. -/
def valueOf (tableColumns : List ColumnCatalog) (vs : List DataValue) (column : ColumnCatalog) :
    Option DataValue :=
  ((tableColumns.zip vs).find? fun p => p.1.sameColumn column).map fun p =>
    p.2.stored p.1.datatype

/-- The values of the requested columns, met one after the other in the row. -/
def picked : List ColumnCatalog → List ColumnCatalog → List DataValue → List DataValue
  | c :: cs, t :: ts, v :: vs =>
    if c.sameColumn t then v.stored t.datatype :: picked cs ts vs else picked (c :: cs) ts vs
  | [], _, _ | _ :: _, [], _ | _ :: _, _ :: _, [] => []

/-- What the deserializers append: a skipped column that is NULL leaves a NULL behind. -/
def produced : List ColumnCatalog → List ColumnCatalog → List DataValue → List DataValue
  | c :: cs, t :: ts, v :: vs =>
    if c.sameColumn t then v.stored t.datatype :: produced cs ts vs
    else if v.isNull then .null :: produced (c :: cs) ts vs
    else produced (c :: cs) ts vs
  | [], _, _ | _ :: _, [], _ | _ :: _, _ :: _, [] => []

/-- No column that is passed over on the way to a requested column is NULL. -/
def NoSkippedNull : List ColumnCatalog → List ColumnCatalog → List DataValue → Prop
  | c :: cs, t :: ts, v :: vs =>
    if c.sameColumn t then NoSkippedNull cs ts vs
    else v.isNull = false ∧ NoSkippedNull (c :: cs) ts vs
  | [], _, _ | _ :: _, [], _ | _ :: _, _ :: _, [] => True

variable {columns cs ts : List ColumnCatalog} {vs : List DataValue} {body : Bytes}
  {ss : List TupleValueSerializableImpl} {c t : ColumnCatalog} {v : DataValue}

theorem length_picked_le (columns ts : List ColumnCatalog) (vs : List DataValue) :
    (picked columns ts vs).length ≤ (produced columns ts vs).length := by
  fun_induction picked columns ts vs with
  | case1 c cs t ts v vs h ih => simp [produced, h, ih]
  | case2 c cs t ts v vs h ih =>
    rw [produced, if_neg h]
    split
    · exact Nat.le_succ_of_le ih
    · exact ih
  | case3 | case4 | case5 => simp

theorem produced_eq_picked_iff (columns ts : List ColumnCatalog) (vs : List DataValue) :
    produced columns ts vs = picked columns ts vs ↔ NoSkippedNull columns ts vs := by
  fun_induction picked columns ts vs with
  | case1 c cs t ts v vs h ih => simp [produced, NoSkippedNull, h, ih]
  | case2 c cs t ts v vs h ih =>
    rw [produced, NoSkippedNull, if_neg h, if_neg h]
    cases hn : v.isNull with
    | true =>
      have hlen := length_picked_le (c :: cs) ts vs
      simp only [if_true, Bool.true_eq_false, false_and, iff_false]
      intro he
      have := congrArg length he
      simp only [length_cons] at this
      omega
    | false => simpa using ih
  | case3 => simp [produced, NoSkippedNull]
  | case4 => simp [produced, NoSkippedNull]
  | case5 => simp [produced, NoSkippedNull]

theorem valueOf_cons_same (h : c.sameColumn t = true) :
    valueOf (t :: ts) (v :: vs) c = some (v.stored t.datatype) := by
  have h' : t.sameColumn c = true := by simpa [sameColumn, eq_comm] using h
  simp [valueOf, h']

/-- A column that is not requested does not change what the others are. -/
theorem map_valueOf_cons (hsub : columns.Sublist ts) (ht : t.summary ∉ ts.map (·.summary)) :
    columns.map (valueOf (t :: ts) (v :: vs)) = columns.map (valueOf ts vs) := by
  refine map_congr_left fun c hc => ?_
  have hne : t.sameColumn c = false := by
    simp only [sameColumn, decide_eq_false_iff_not]
    intro he
    exact ht (he ▸ mem_map_of_mem (hsub.subset hc))
  simp [valueOf, hne]

theorem sublist_of_not_same (hsub : (c :: cs).Sublist (t :: ts)) (h : ¬ c.sameColumn t = true) :
    (c :: cs).Sublist ts := by
  cases hsub with
  | cons _ h => exact h
  | cons_cons => simp [sameColumn] at h

theorem picked_eq (hsub : columns.Sublist ts) (hnd : (ts.map (·.summary)).Nodup)
    (hlen : vs.length = ts.length) :
    (picked columns ts vs).map some = columns.map (valueOf ts vs) := by
  induction ts generalizing columns vs with
  | nil =>
    cases hsub
    rfl
  | cons t ts ih =>
    obtain ⟨ht, hnd⟩ := nodup_cons.mp hnd
    cases vs with
    | nil => simp at hlen
    | cons v vs =>
      have hlen : vs.length = ts.length := by simpa using hlen
      cases columns with
      | nil => rfl
      | cons c cs =>
        rw [picked]
        by_cases hc : c.sameColumn t
        · have hcs : cs.Sublist ts := hsub.tail
          rw [if_pos hc, map_cons, map_cons, valueOf_cons_same hc,
            map_valueOf_cons hcs ht, ih hcs hnd hlen]
        · have hcs := sublist_of_not_same hsub hc
          rw [if_neg hc, ih hcs hnd hlen, map_valueOf_cons hcs ht]

theorem skipSerializable_ok {ty : LogicalType} {s : TupleValueSerializableImpl}
    (h : ty.serializable = .ok s) : ∃ k, ty.skipSerializable = .ok k := by
  cases ty with
  | char len unit => cases unit <;> exact ⟨_, rfl⟩
  | sqlNull | tuple => cases h
  | _ => exact ⟨_, rfl⟩

/-- What stays the same while a scan goes on. -/
structure ScansColumns (table : TableCatalog) (columns : List ColumnCatalog) (it : TupleIter) :
    Prop where
  pkTy : it.pkTy = none
  deserializers : table.createDeserializers columns false = .ok it.deserializers
  totalLen : it.totalLen = table.columns.length

theorem scansColumns_read {store : Store} {table : TableCatalog} {bounds : IterBounds}
    {it : TupleIter} (h : store.read table bounds columns false = .ok it) :
    ScansColumns table columns it := by
  obtain ⟨ds, iter, hds, -, h⟩ := bind_bind_eq_ok.mp h
  cases h
  exact ⟨rfl, hds, rfl⟩

theorem skipOffset_of_drop {n : Nat} {l rest : List KeyValue} {entry : KeyValue}
    (h : l.drop n = entry :: rest) : skipOffset n l = (0, some (entry :: rest)) := by
  induction n generalizing l with
  | zero =>
    rw [drop_zero] at h
    rw [skipOffset, h]
  | succ n ih =>
    cases l with
    | nil => simp at h
    | cons e l => exact ih h

section Layout

variable [DecimalLayout] {it it' : TupleIter}

/-- One column of a stored row, read by `d`, in front of the columns after it. -/
theorem ReadsColumns.cons_of_row {s d : TupleValueSerializableImpl}
    {ds : List TupleValueSerializableImpl} {o out : List DataValue}
    (hb : rowBody ((v, s) :: vs.zip ss) = .ok body)
    (hd : v.isNull = false → ∀ a, s.toRaw v = .ok a → Reads d.fillingValue a o)
    (ih : ∀ body, rowBody (vs.zip ss) = .ok body → ∃ a b, body = a ++ b ∧ ReadsColumns ds vs a out)
    :
    ∃ a b, body = a ++ b ∧
      ReadsColumns (d :: ds) (v :: vs) a ((if v.isNull then [.null] else o) ++ out) := by
  cases hn : v.isNull with
  | true =>
    rw [isNull_iff] at hn
    subst hn
    obtain ⟨a, b, rfl, hr⟩ := ih body hb
    exact ⟨a, b, rfl, .null d hr⟩
  | false =>
    rw [rowBody, if_neg (by simp [hn])] at hb
    obtain ⟨a, b, ha, hb', hab⟩ := bind_bind_eq_ok.mp hb
    cases hab
    obtain ⟨a', b', rfl, hr⟩ := ih b hb'
    exact ⟨a ++ a', b', by rw [append_assoc], .value hn (hd hn a ha) hr⟩

/-- The deserializers for some of the columns read a stored row up to the last of them. -/
theorem deserializersFrom_reads (hsub : columns.Sublist ts)
    (hrow : RowOf vs (ts.map (·.datatype))) (hlen : ∀ v ∈ vs, v.writtenLen < 2 ^ 32)
    (hs : (ts.map (·.datatype)).mapM LogicalType.serializable = .ok ss) :
    ∃ ds, deserializersFrom false columns 0 ts = .ok ds ∧
      ∀ body, rowBody (vs.zip ss) = .ok body →
        ∃ a b, body = a ++ b ∧ ReadsColumns ds vs a (produced columns ts vs) := by
  induction ts generalizing columns vs ss with
  | nil =>
    cases hrow
    cases hsub
    exact ⟨[], rfl, fun body _ => ⟨[], body, rfl, .nil []⟩⟩
  | cons t ts ih =>
    cases columns with
    | nil => exact ⟨[], rfl, fun body _ => ⟨[], body, rfl, .nil vs⟩⟩
    | cons c cs =>
      cases hrow with
      | @cons v _ vs _ hv hrow =>
        obtain ⟨s, ss, hst, hss, rfl⟩ := Traverse.mapM_cons_eq_ok.mp hs
        have hl := hlen v (by simp)
        have ih' := fun {columns : List ColumnCatalog} (h : columns.Sublist ts) =>
          ih h hrow (fun w hw => hlen w (by simp [hw])) hss
        by_cases hc : c.sameColumn t
        · obtain ⟨ds, hds, hr⟩ := ih' hsub.tail
          refine ⟨s :: ds, ?_, fun body hb => ?_⟩
          · simp only [tail_cons] at hds
            simp [deserializersFrom, hc, hst, hds]
          · have hcol := ReadsColumns.cons_of_row hb
              (fun _ a ha => reads_fillingValue hst ha hv.1.declaresChar hl) hr
            rw [hv.1.kept] at hcol
            rw [produced, if_pos hc]
            cases hn : v.isNull with
            | true =>
              rw [isNull_iff] at hn
              subst hn
              exact hcol
            | false => simpa [hn] using hcol
        · obtain ⟨ds, hds, hr⟩ := ih' (sublist_of_not_same hsub hc)
          obtain ⟨k, hk⟩ := skipSerializable_ok hst
          refine ⟨k :: ds, ?_, fun body hb => ?_⟩
          · simp [deserializersFrom, hc, hk, hds]
          · have hcol := ReadsColumns.cons_of_row (d := k) (o := []) hb
              (fun hn a ha => reads_fillingValue_skip hv.1 hn hst ha hl hk) hr
            rw [produced, if_neg hc]
            cases hn : v.isNull <;> simpa [hn] using hcol

/-- A step that yields a tuple only moves the bounds and the entries on. -/
theorem nextTupleInto_eq_some {tuple : Tuple} (h : it.nextTupleInto = .ok (some tuple, it')) :
    ∃ bounds iter, it' = { it with bounds := bounds, iter := iter } := by
  unfold nextTupleInto at h
  split at h
  · cases h
  · cases h
  · dsimp only at h
    split at h
    · cases h
    · obtain ⟨id, t, -, -, h⟩ := bind_bind_eq_ok.mp h
      cases h
      exact ⟨_, _, rfl⟩

theorem scansColumns_reaches {table : TableCatalog} (h : Iterate.Reaches nextTupleInto it it')
    (hs : ScansColumns table columns it) : ScansColumns table columns it' := by
  refine h.invariant (fun it tuple it' hs hn => ?_) hs
  obtain ⟨bounds, iter, rfl⟩ := nextTupleInto_eq_some hn
  exact ⟨hs.pkTy, hs.deserializers, hs.totalLen⟩

/-- The next tuple of a scan without primary keys decodes the next entry. -/
theorem nextTupleInto_of_drop {key value : Bytes} {rest : List KeyValue} {values : List DataValue}
    (hi : it.iter.drop it.bounds.offset = (key, value) :: rest) (hl : it.bounds.limit ≠ some 0)
    (hp : it.pkTy = none) (hd : deserializeFromInto it.deserializers value it.totalLen = .ok values)
    : ∃ it', it.nextTupleInto = .ok (some ⟨none, values⟩, it') := by
  rw [nextTupleInto, skipOffset_of_drop hi]
  simp only [IterBounds.limitReached, decide_eq_true_eq, if_neg hl, hp, decodeTuple, hd]
  exact ⟨_, rfl⟩

end Layout

/-- A scan for some of the columns produces their values exactly when no column it passes over is
NULL. -/
theorem read_projection_iff [DecimalLayout] {store : Store} {table : TableCatalog}
    {bounds : IterBounds} {it₀ it : TupleIter} {key value : Bytes} {rest : List KeyValue}
    (hread : store.read table bounds columns false = .ok it₀)
    (hreach : Iterate.Reaches TupleIter.nextTupleInto it₀ it)
    (hi : it.iter.drop it.bounds.offset = (key, value) :: rest)
    (hl : it.bounds.limit ≠ some 0) (hsub : columns.Sublist table.columns)
    (hnd : (table.columns.map (·.summary)).Nodup) (hrow : RowOf vs table.columnTypes)
    (hlen : ∀ v ∈ vs, v.writtenLen < 2 ^ 32)
    (hs : table.columnTypes.mapM LogicalType.serializable = .ok ss)
    (hw : serializeTo vs ss = .ok value) :
    ∃ tuple it', it.nextTupleInto = .ok (some tuple, it') ∧
      (tuple.values.map some = columns.map (valueOf table.columns vs) ↔
        NoSkippedNull columns table.columns vs) := by
  have hscan := scansColumns_reaches hreach (scansColumns_read hread)
  have hvs : vs.length = table.columns.length := by
    have := hrow.length_eq
    rwa [columnTypes, List.length_map] at this
  have hss := hrow.length_serializers hs
  obtain ⟨body, hb, rfl⟩ := (serializeTo_eq_ok (by omega)).mp hw
  obtain ⟨ds, hds, hr⟩ := deserializersFrom_reads hsub hrow hlen hs
  obtain ⟨a, b, rfl, hcols⟩ := hr body hb
  have hds' := hscan.deserializers
  rw [createDeserializers, if_neg (by decide), hds] at hds'
  have hd : deserializeFromInto it.deserializers
      (putNulls 0 vs (List.replicate (bitsLen vs.length) 0) ++ (a ++ b)) it.totalLen =
      .ok (produced columns table.columns vs) := by
    rw [← Except.ok.inj hds', hscan.totalLen, ← hvs, deserializeFromInto,
      sliceFrom_append (by simp), Result.ok_bind]
    refine runReader_of_reads (hcols.reads (i := 0) fun k v hk => ?_) b
    rw [Nat.zero_add]
    exact get_row hk (a ++ b)
  obtain ⟨it', hn⟩ := nextTupleInto_of_drop hi hl hscan.pkTy hd
  refine ⟨_, it', hn, ?_⟩
  rw [← picked_eq hsub hnd hvs, ← produced_eq_picked_iff]
  exact (List.map_injective_iff.mpr (Option.some_injective _)).eq_iff

/-- Three integer columns, the first of them the primary key. -/
def threeColumns : TableCatalog where
  name := "t"
  columns := [⟨⟨"a", .table 1 "t" false⟩, false, ⟨.integer, some 0, false, none⟩⟩,
    ⟨⟨"b", .table 2 "t" false⟩, true, ⟨.integer, none, false, none⟩⟩,
    ⟨⟨"c", .table 3 "t" false⟩, true, ⟨.integer, none, false, none⟩⟩]
  indexes := []

/-- The store after one row was appended to an empty table. -/
def oneRow (values : List DataValue) : Store :=
  match @Store.appendTuple .flagsFirst ∅ "t" ⟨some (.int32 1), values⟩ [.int32, .int32, .int32]
    false with
  | .ok store => store
  | .error _ => ∅

theorem read_projection_third_column :
    ∃ it row it', (oneRow [.int32 1, .int32 2, .int32 3]).read threeColumns ⟨0, none⟩
        (threeColumns.columns.drop 2) false = .ok it ∧
      @TupleIter.nextTupleInto .flagsFirst it = .ok (some row, it') ∧
      row.values.map some = [some (.int32 3)] := by
  let _ := DecimalLayout.flagsFirst
  obtain ⟨row, it', hn, h⟩ := @read_projection_iff (threeColumns.columns.drop 2)
    [.int32 1, .int32 2, .int32 3] [.int32, .int32, .int32] _
    (oneRow [.int32 1, .int32 2, .int32 3]) threeColumns ⟨0, none⟩ _ _ _ _ _
    rfl (.refl _) rfl (by simp) (List.drop_sublist 2 _) (by decide)
    (.cons ⟨⟨.int32 1, rfl⟩, rfl⟩ (.cons ⟨⟨.int32 2, rfl⟩, rfl⟩
      (.cons ⟨⟨.int32 3, rfl⟩, rfl⟩ .nil))) (by simp [writtenLen]) rfl rfl
  exact ⟨_, row, it', rfl, hn, h.mpr ⟨rfl, rfl, trivial⟩⟩

/-- Asking for the last column of a row whose second column is NULL gives two values. -/
theorem read_projection_skipped_null :
    (do
      let it ← (oneRow [.int32 1, .null, .int32 3]).read threeColumns ⟨0, none⟩
        (threeColumns.columns.drop 2) false
      let (row, _) ← @TupleIter.nextTupleInto .flagsFirst it
      return row.map (·.values)) =
        (.ok (some [.null, .int32 3]) : Result (Option (List DataValue))) := by
  rfl

end KiteSQL
