import KiteSQL.Lib.KeyRange
import KiteSQL.Expression.SingleRange
import KiteSQL.Types.KeyOrder

/-! Index ranges between two parameters, opened when the parameters are bound. -/
namespace KiteSQL

open DataValue LexCode TableCodec IndexRangeColumn DataValue IndexImplParams Expression Result

namespace PushPredicateIntoScan

/-- What `composite_range` has found: the range, the ranges of equalities before it, how many
columns gave a range, and what is left of the predicate. -/
structure CompositeState where
  res : Option Range
  eqRanges : List Range
  applyColumnCount : Nat
  residual : Option Expression

/-- Column after column, as long as the columns are fixed to values. -/
def compositeLoop [Conversions] [Evaluators] (tableName : String) (columnIds : List ColumnId) :
    List Nat → CompositeState → Result CompositeState
  | [], s => .ok s
  | position :: positions, s =>
    match s.residual with
    | none => .ok s
    | some predicate => do
      match ← IndexRangeColumn.detach ⟨tableName, columnIds, position⟩ predicate with
      | none => return s
      | some detached =>
        let s := { s with
          residual := detached.residual, applyColumnCount := s.applyColumnCount + 1 }
        if detached.range.onlyEq then
          compositeLoop tableName columnIds positions
            { s with eqRanges := s.eqRanges ++ [detached.range] }
        else return { s with res := detached.range.combiningEqs s.eqRanges }

end PushPredicateIntoScan

/-- `c > v` or `c >= v`, from either side. -/
def lowerTest (strict flipped : Bool) (column : ColumnCatalog) (position : Nat)
    (value : DataValue) : Expression :=
  if flipped then
    .binary (if strict then .lt else .ltEq) (.constant value) (.columnRef column position) .boolean
  else
    .binary (if strict then .gt else .gtEq) (.columnRef column position) (.constant value) .boolean

/-- `c < v` or `c <= v`, from either side. -/
def upperTest (strict flipped : Bool) (column : ColumnCatalog) (position : Nat)
    (value : DataValue) : Expression :=
  if flipped then
    .binary (if strict then .gt else .gtEq) (.constant value) (.columnRef column position) .boolean
  else
    .binary (if strict then .lt else .ltEq) (.columnRef column position) (.constant value) .boolean

/-- Both tests, in either order. -/
def bothTests (upperFirst : Bool) (lower upper : Expression) : Expression :=
  if upperFirst then .binary .and upper lower .boolean else .binary .and lower upper .boolean

def boundOf {α : Type} (strict : Bool) (value : α) : Bound α :=
  if strict then .excluded value else .included value

section Prepared

variable [Conversions] [Evaluators] [DecimalLayout]

/-- The range of an index for a predicate on one column: of a composite index, once its leading
columns are fixed to values. -/
def indexRange (self : IndexRangeColumn) (leading : Option (List DataValue))
    (predicate : Expression) : Result (Option Range) :=
  match leading with
  | none => do return (← self.detach predicate).map (·.range)
  | some values => do
    let s ← PushPredicateIntoScan.compositeLoop self.tableName self.columnIds
      ((List.range self.columnIds.length).drop self.position)
      ⟨none, values.map .eq, values.length, some predicate⟩
    return s.res

/-- The entries of a continuous range once its parameters are bound. -/
def openPrepared (params : IndexImplParams) (inner : IndexImplEnum) (range : Option Range)
    (values : List (Nat × DataValue)) : Result (List KeyValue) :=
  match range with
  | none => .ok []
  | some range => do
    match ← range.bindParameters values with
    | .scope min max => params.openScope inner min max
    | _ => return []

/-- The value behind the values of the leading columns. -/
def keyed (leading : Option (List DataValue)) (value : DataValue) : DataValue :=
  match leading with
  | none => value
  | some values => .tuple (values ++ [value])

/-- What tells an upper end from a lower end of the same key; a unique index has no such byte. -/
def endTag (inner : IndexImplEnum) (isUpper : Bool) : Bytes :=
  if isUpper && inner ≠ .unique then [boundMaxTag] else []

/-- The key of the lower value is below the key of the upper value, or it is the same key and one
of the two ends belongs to the range. -/
def InOrder (strictLower strictUpper : Bool) (x y : DataValue) : Prop :=
  ∃ a b, x.memcomparableEncode = .ok a ∧ y.memcomparableEncode = .ok b ∧
    (compare a b = .lt ∨ compare a b = .eq ∧ ¬ (strictLower = true ∧ strictUpper = true))

variable {self : IndexRangeColumn} {column : ColumnCatalog} {position : Nat} {v w x y : DataValue}
  {vs : List DataValue} {t : LogicalType}
  {strict strictLower strictUpper flipped flippedLower flippedUpper : Bool} {a b : Bytes}
  {params : IndexImplParams} {inner : IndexImplEnum} {leading bound : Option (List DataValue)}
  {values : List (Nat × DataValue)} {upperFirst : Bool} {i j : Nat}

section Detach

omit [DecimalLayout]

theorem detach_lowerTest (hm : self.matchesColumn column = true) (hn : v.isNull = false)
    (hc : v.cast column.datatype = .ok w) :
    self.detach (lowerTest strict flipped column position v) =
      .ok (some (.consumed (.scope (boundOf strict w) (IndexRangeColumn.openEnd column)))) := by
  cases strict <;> cases flipped <;>
    simp [lowerTest, IndexRangeColumn.detach, unpackBoundCol, unpackVal,
      IndexRangeColumn.newRange, hm, hn, hc, IndexRangeColumn.flip, boundOf]

theorem detach_upperTest (hm : self.matchesColumn column = true) (hn : v.isNull = false)
    (hc : v.cast column.datatype = .ok w) :
    self.detach (upperTest strict flipped column position v) =
      .ok (some (.consumed (.scope .unbounded (boundOf strict w)))) := by
  cases strict <;> cases flipped <;>
    simp [upperTest, IndexRangeColumn.detach, unpackBoundCol, unpackVal,
      IndexRangeColumn.newRange, hm, hn, hc, IndexRangeColumn.flip, boundOf]

omit [Evaluators] in
theorem cast_parameter (id : Nat) (ty t : LogicalType) :
    (DataValue.parameter id ty).cast t = .ok (.parameter id t) := by
  rw [DataValue.cast]
  split
  · next h => rw [← h, DataValue.logicalType]
  · rfl

omit [Conversions] [Evaluators] in
theorem andScopeMerge_parameters :
    Range.andScopeMerge (boundOf strictLower (.parameter i t)) (openEnd column)
          .unbounded (boundOf strictUpper (.parameter j t)) =
        .ok (.scope (boundOf strictLower (.parameter i t))
          (boundOf strictUpper (.parameter j t))) ∧
      Range.andScopeMerge .unbounded (boundOf strictUpper (.parameter j t))
          (boundOf strictLower (.parameter i t)) (openEnd column) =
        .ok (.scope (boundOf strictLower (.parameter i t)) (boundOf strictUpper (.parameter j t))) := by
  cases strictLower <;> cases strictUpper <;> cases h : column.nullable <;>
    simp [Range.andScopeMerge, openEnd, boundOf, Bound.boundCompared, h,
      Bound.isMinThenReverse, Bound.rangeValueCmp, partialCmp]

/-- Nothing is known of two parameters, so their tests give one range whatever they are bound to. -/
theorem detach_bothTests (hm : self.matchesColumn column = true) (ti tj : LogicalType) :
    self.detach (bothTests upperFirst
        (lowerTest strictLower flippedLower column position (.parameter i ti))
        (upperTest strictUpper flippedUpper column position (.parameter j tj))) =
      .ok (some (.consumed (.scope (boundOf strictLower (.parameter i column.datatype))
        (boundOf strictUpper (.parameter j column.datatype))))) := by
  have hl := @detach_lowerTest _ _ self column position _ _ strictLower flippedLower hm rfl
    (cast_parameter i ti column.datatype)
  have hu := @detach_upperTest _ _ self column position _ _ strictUpper flippedUpper hm rfl
    (cast_parameter j tj column.datatype)
  obtain ⟨hmerge, hswap⟩ :=
    @andScopeMerge_parameters column column.datatype strictLower strictUpper i j
  rw [bothTests]
  split
  all_goals
    rw [detach, hl, hu]
    cases flippedUpper <;> cases flippedLower <;>
      simp [lowerTest, upperTest, unpackBoundCol, unpackVal,
        DetachedPredicate.consumed, detachAnd, Range.mergeBinary,
        Range.mergeFlat, Range.scopeScopeMerge, hmerge, hswap, DetachedPredicate.combineResiduals]

end Detach

omit [Conversions] [Evaluators] [DecimalLayout] in
theorem mergeValueOnBound_boundOf : Range.mergeValueOnBound vs (boundOf strict v) =
    boundOf strict (keyed (some vs) v) := by
  cases strict <;> rfl

section Bind

omit [DecimalLayout]

/-- The range of both tests, on an index column of its own or behind the leading columns. -/
theorem indexRange_bothTests (hm : self.matchesColumn column = true) (ti tj : LogicalType) :
    indexRange self leading (bothTests upperFirst
        (lowerTest strictLower flippedLower column position (.parameter i ti))
        (upperTest strictUpper flippedUpper column position (.parameter j tj))) =
      .ok (some (.scope (boundOf strictLower (keyed leading (.parameter i column.datatype)))
        (boundOf strictUpper (keyed leading (.parameter j column.datatype))))) := by
  have hd := @detach_bothTests _ _ self column position strictLower strictUpper flippedLower
    flippedUpper upperFirst i j hm ti tj
  cases leading with
  | none =>
    rw [indexRange, hd]
    rfl
  | some vs =>
    have hpos : self.position < self.columnIds.length := by
      by_contra hlen
      rw [matchesColumn] at hm
      split at hm
      · cases hm
      · simp [List.getElem?_eq_none (Nat.le_of_not_lt hlen)] at hm
    have hdrop : (List.range self.columnIds.length).drop self.position =
        self.position :: (List.range self.columnIds.length).drop (self.position + 1) := by
      rw [List.drop_eq_getElem_cons (by simpa using hpos), List.getElem_range]
    simp only [indexRange, hdrop, PushPredicateIntoScan.compositeLoop, hd, ok_bind,
      DetachedPredicate.consumed, Range.onlyEq, Range.combiningEqs_values,
      Range.collectTupleRange, Range.ranges2range, mergeValueOnBound_boundOf]
    rfl

omit [Evaluators] in
theorem bindParameters_boundOf (h : v.bindParameters values = .ok w) :
    (boundOf strict v).bindParameters values = .ok (boundOf strict w) := by
  cases strict <;> simp [boundOf, Bound.bindParameters, h]

omit [Evaluators] in
theorem bindAll_concat {ws : List DataValue} (hvs : bindAll values vs = .ok ws)
    (hv : v.bindParameters values = .ok w) : bindAll values (vs ++ [v]) = .ok (ws ++ [w]) := by
  induction vs generalizing ws with
  | nil =>
    cases hvs
    simp [DataValue.bindAll, hv]
  | cons u vs ih =>
    simp only [DataValue.bindAll] at hvs
    obtain ⟨u', us, hu, hus, hvs⟩ := bind_bind_eq_ok.mp hvs
    cases hvs
    simp [DataValue.bindAll, hu, ih hus]

omit [Evaluators] in
theorem bindParameters_keyed (hl : leading.mapM (bindAll values) = .ok bound)
    (hv : v.bindParameters values = .ok w) :
    (keyed leading v).bindParameters values = .ok (keyed bound w) := by
  cases leading with
  | none =>
    cases hl
    exact hv
  | some vs =>
    obtain ⟨ws, hws, hl⟩ := bind_eq_ok.mp hl
    cases hl
    simp [keyed, bindParameters, bindAll_concat hws hv]

end Bind

section Keys

omit [Conversions] [Evaluators]

variable {us : Bytes}

omit [DecimalLayout] in
theorem memcomparableEncodeAll_concat (hvs : memcomparableEncodeAll vs = .ok us)
    (hv : v.memcomparableEncode = .ok a) : memcomparableEncodeAll (vs ++ [v]) = .ok (us ++ a) := by
  induction vs generalizing us with
  | nil =>
    cases hvs
    simpa using memcomparableEncodeAll_cons hv (show memcomparableEncodeAll [] = .ok [] from rfl)
  | cons u vs ih =>
    obtain ⟨x, xs, hx, hxs, hvs⟩ := bind_bind_eq_ok.mp hvs
    cases hvs
    rw [List.cons_append, memcomparableEncodeAll_cons hx (ih hxs), List.append_assoc]

omit [DecimalLayout] in
theorem indexValues_of_fits {s : TupleValueSerializableImpl} (h : Fits v t)
    (hs : t.serializable = .ok s) : indexValues v = [v] := by
  cases h with
  | tupleNil | tupleCons => cases hs
  | _ => rfl

theorem indexKey_eq (ty : IndexType) (h : memcomparableEncodeAll (indexValues v) = .ok us) :
    params.indexKey ty v =
      .ok (indexPrefix params.tableName params.indexMeta.id boundMinTag ++ us) := by
  cases ty <;> simp [indexKey, withIndex, indexRow, indexValue, h]

omit [DecimalLayout] in
theorem encodeBoundKey_eq (key : Bytes) (isUpper : Bool) (h : inner ≠ .unique) :
    encodeBoundKey key isUpper = key ++ endTag inner isUpper := by
  cases isUpper <;> simp [encodeBoundKey, endTag, h]

omit [DecimalLayout] in
theorem memcomparableEncodeAll_keyed (hv : indexValues v = [v])
    (hb : memcomparableEncodeAll (bound.getD []) = .ok us) (ha : v.memcomparableEncode = .ok a) :
    memcomparableEncodeAll (indexValues (keyed bound v)) = .ok (us ++ a) := by
  have h := memcomparableEncodeAll_concat hb ha
  cases bound with
  | none => rwa [keyed, hv]
  | some vs => exact h

omit [DecimalLayout] in
theorem memcomparableEncode_keyed (hb : memcomparableEncodeAll (bound.getD []) = .ok us) :
    ∃ front, ∀ v a, v.memcomparableEncode = .ok a →
      (keyed bound v).memcomparableEncode = .ok (front ++ a) := by
  cases bound with
  | none => exact ⟨[], fun v a ha => ha⟩
  | some vs =>
    refine ⟨notNullTag :: us, fun v a ha => ?_⟩
    exact memcomparableEncode_of_body rfl (memcomparableEncodeAll_concat hb ha)

/-- The keys of an index for different values of its last bound column differ only in the bytes of
that value. -/
theorem boundKey_keyed (params : IndexImplParams) (inner : IndexImplEnum)
    (hb : memcomparableEncodeAll (bound.getD []) = .ok us) :
    ∃ base, ∀ v a isUpper, indexValues v = [v] → v.memcomparableEncode = .ok a →
      params.boundKey inner (keyed bound v) isUpper =
        .ok (base ++ (a ++ endTag inner isUpper)) := by
  obtain ⟨front, hfront⟩ := memcomparableEncode_keyed hb
  cases inner with
  | primaryKey =>
    refine ⟨tuplePrefix params.tableName boundMinTag ++ front, fun v a isUpper hv ha => ?_⟩
    simp [boundKey, withTupleUnchecked, hfront v a ha,
      encodeBoundKey_eq _ isUpper (show IndexImplEnum.primaryKey ≠ .unique by decide)]
  | unique =>
    refine ⟨indexPrefix params.tableName params.indexMeta.id boundMinTag ++ us,
      fun v a isUpper hv ha => ?_⟩
    simp [boundKey, indexKey_eq _ (memcomparableEncodeAll_keyed hv hb ha), endTag]
  | normal | composite | covered =>
    refine ⟨indexPrefix params.tableName params.indexMeta.id boundMinTag ++ us,
      fun v a isUpper hv ha => ?_⟩
    simp only [boundKey, indexKey_eq _ (memcomparableEncodeAll_keyed hv hb ha)]
    cases isUpper <;> simp [encodeBoundKey, endTag]

end Keys

section Open

omit [Conversions] [Evaluators]

theorem encodeBound_boundOf {key : Bytes} {isUpper : Bool}
    (h : params.boundKey inner v (isUpper != strict) = .ok key) :
    params.encodeBound inner (boundOf strict v) isUpper = .ok (boundOf strict key) := by
  cases strict <;> simp_all [boundOf, encodeBound]

omit [DecimalLayout] in
theorem fillDefaultBound_boundOf (key default : Bytes) :
    fillDefaultBound (boundOf strict key) default = boundOf strict key := by
  cases strict <;> rfl

omit [DecimalLayout] in
/-- Two ends that differ by a value and by the byte of an upper end. -/
theorem isInverted_boundOf {base : Bytes} (h : Decides a b (compare a b)) :
    Bound.isInverted (boundOf strictLower (base ++ (a ++ endTag inner strictLower)))
        (boundOf strictUpper (base ++ (b ++ endTag inner (!strictUpper)))) = false ↔
      compare a b = .lt ∨ compare a b = .eq ∧ ¬ (strictLower = true ∧ strictUpper = true) := by
  have hc : compare (base ++ (a ++ endTag inner strictLower))
      (base ++ (b ++ endTag inner (!strictUpper))) =
      (compare a b).then (compare (endTag inner strictLower) (endTag inner (!strictUpper))) := by
    rw [KeyRange.compare_append_left, h]
  cases hab : compare a b <;> cases strictLower <;> cases strictUpper <;>
    cases inner <;> simp_all [Bound.isInverted, boundOf, endTag]

omit [DecimalLayout] in
theorem inOrder_iff (ha : v.memcomparableEncode = .ok a) (hb : w.memcomparableEncode = .ok b) :
    InOrder strictLower strictUpper v w ↔
      compare a b = .lt ∨ compare a b = .eq ∧ ¬ (strictLower = true ∧ strictUpper = true) := by
  simp [InOrder, ha, hb]

/-- Opening the bound range asks the map for a range whose ends are in order. -/
theorem openScope_keyed {us : Bytes} (hb : memcomparableEncodeAll (bound.getD []) = .ok us)
    (hv : indexValues v = [v]) (hw : indexValues w = [w]) (ha : v.memcomparableEncode = .ok a)
    (hb' : w.memcomparableEncode = .ok b) (hd : Decides a b (compare a b)) :
    (∀ m, params.openScope inner (boundOf strictLower (keyed bound v))
        (boundOf strictUpper (keyed bound w)) ≠ .error (.panic m)) ↔
      InOrder strictLower strictUpper v w := by
  obtain ⟨base, hbase⟩ := boundKey_keyed params inner hb
  have hmin := encodeBound_boundOf (hbase v a (false != strictLower) hv ha)
  have hmax := encodeBound_boundOf (hbase w b (true != strictUpper) hw hb')
  have hinv := @isInverted_boundOf strictLower strictUpper a b inner base hd
  rw [Bool.false_bne] at hmin
  rw [Bool.true_bne] at hmax
  have hopen : params.openScope inner (boundOf strictLower (keyed bound v))
      (boundOf strictUpper (keyed bound w)) =
      params.tx.range (boundOf strictLower (base ++ (a ++ endTag inner strictLower)))
        (boundOf strictUpper (base ++ (b ++ endTag inner (!strictUpper)))) := by
    simp only [openScope, hmin, hmax, ok_bind, fillDefaultBound_boundOf]
  rw [hopen, inOrder_iff ha hb', ← hinv, Store.range]
  split
  · next hi => simp [hi]
  · next hi => simp [hi]

end Open

/-- An index range between two parameters can be opened in memory exactly when the bound values are
in order: on an index of any kind, in front of or behind other columns, with either comparison on
either side. -/
theorem openPrepared_between_iff {s : TupleValueSerializableImpl} {ti tj : LogicalType} {us : Bytes}
    (hm : self.matchesColumn column = true) (hs : column.datatype.serializable = .ok s)
    (hi : values.lookup i = some x) (hj : values.lookup j = some y)
    (hx : x.cast column.datatype = .ok v) (hy : y.cast column.datatype = .ok w)
    (hv : Fits v column.datatype) (hw : Fits w column.datatype)
    (hl : leading.mapM (DataValue.bindAll values) = .ok bound)
    (hb : memcomparableEncodeAll (bound.getD []) = .ok us) :
    ∃ range, indexRange self leading (bothTests upperFirst
        (lowerTest strictLower flippedLower column position (.parameter i ti))
        (upperTest strictUpper flippedUpper column position (.parameter j tj))) = .ok range ∧
      ((∀ m, openPrepared params inner range values ≠ .error (.panic m)) ↔
        InOrder strictLower strictUpper v w) := by
  refine ⟨_, indexRange_bothTests hm ti tj, ?_⟩
  have hbind : ∀ id z u, values.lookup id = some z → z.cast column.datatype = .ok u →
      (parameter id column.datatype).bindParameters values = .ok u := by
    intro id z u hid hz
    simp [bindParameters, hid, hz]
  have hlower := bindParameters_keyed hl (hbind i x v hi hx)
  have hupper := bindParameters_keyed hl (hbind j y w hj hy)
  obtain ⟨a, -, ha, -⟩ := hv.reads
  obtain ⟨b, -, hb', -⟩ := hw.reads
  simp only [openPrepared, Range.bindParameters, bindParameters_boundOf hlower,
    bindParameters_boundOf hupper, Result.ok_bind]
  exact openScope_keyed hb (indexValues_of_fits hv hs) (indexValues_of_fits hw hs) ha hb'
    (hv.decides hw ha hb')

end Prepared

/-- The column `c` of the table `t`, with a normal index of its own. -/
def indexedColumn : ColumnCatalog :=
  ⟨⟨"c", .table 1 "t" false⟩, true, ⟨.integer, none, false, none⟩⟩

/-- The entries of the rows with 3 and 9 in it. -/
def indexedColumnStore : Store :=
  let _ := DecimalLayout.flagsFirst
  ([int32 3, int32 9].foldlM (fun (store : Store) v => store.addIndex "t" ⟨0, [v], .normal⟩ v)
    ∅).toOption.getD ∅

def indexedColumnParams : IndexImplParams :=
  ⟨⟨0, [1], .integer, .integer, "idx", .normal⟩, "t", [], 2, indexedColumnStore, none, false⟩

/-- `c > $1 AND c < $2` with `$1 = 1` and `$2 = 5` opens and finds one of the two rows. -/
theorem openPrepared_between_one_five :
    let _ := Conversions.refusing
    let _ := Evaluators.none
    let _ := DecimalLayout.flagsFirst
    ∃ range, indexRange ⟨"t", [1], 0⟩ none (bothTests false
        (lowerTest true false indexedColumn 0 (.parameter 1 .integer))
        (upperTest true false indexedColumn 0 (.parameter 2 .integer))) = .ok range ∧
      InOrder true true (.int32 1) (.int32 5) ∧
      (∀ m, openPrepared indexedColumnParams .normal range [(1, .int32 1), (2, .int32 5)] ≠
        .error (.panic m)) ∧
      List.length <$> openPrepared indexedColumnParams .normal range
        [(1, .int32 1), (2, .int32 5)] = .ok 1 := by
  intro _ _ _
  have horder : InOrder true true (.int32 1) (.int32 5) :=
    ⟨_, _, rfl, rfl, by decide⟩
  have hleading : (none : Option (List DataValue)).mapM
      (bindAll [(1, .int32 1), (2, .int32 5)]) = .ok none := rfl
  have hfront : memcomparableEncodeAll ((none : Option (List DataValue)).getD []) = .ok [] := rfl
  refine (openPrepared_between_iff rfl rfl rfl rfl rfl rfl (.int32 1) (.int32 5) hleading
    hfront).imp fun range h => ⟨h.1, horder, h.2.mpr horder, ?_⟩
  obtain ⟨⟨⟩, -⟩ := h
  rfl

/-- Bound to `5` and `1`, and to `3` and `3`, it panics. -/
theorem openPrepared_between_panics :
    let _ := Conversions.refusing
    let _ := Evaluators.none
    let _ := DecimalLayout.flagsFirst
    ∃ range, indexRange ⟨"t", [1], 0⟩ none (bothTests false
        (lowerTest true false indexedColumn 0 (.parameter 1 .integer))
        (upperTest true false indexedColumn 0 (.parameter 2 .integer))) = .ok range ∧
      openPrepared indexedColumnParams .normal range [(1, .int32 5), (2, .int32 1)] =
        .error (.panic "range start is greater than range end in BTreeMap") ∧
      openPrepared indexedColumnParams .normal range [(1, .int32 3), (2, .int32 3)] =
        .error (.panic "range start is greater than range end in BTreeMap") :=
  ⟨_, rfl, rfl, rfl⟩

end KiteSQL
