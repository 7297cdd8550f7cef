import KiteSQL.Execution.SimpleAgg
import KiteSQL.Execution.TopK
import KiteSQL.Types.Evaluator.Equal
import KiteSQL.Types.SortKeys

/-! A MIN or MAX of all rows over the first row of a sort. -/
namespace KiteSQL

open Iterate DataValue StableSort SimpleAgg Result List

structure AggregateOperator where
  groupbyExprs : List Expression
  aggCalls : List AggCall

/-- The operator that is put below the aggregate, unless it is there already. -/
def wrapChild (sameRef : Expression → Expression → Bool) (child : Option TopKOperator)
    (arg : Expression) (asc : Bool) : Option TopKOperator :=
  let alreadyTopK := child.any fun topK => topK.limit = 1 && topK.offset.isNone &&
    match topK.sortFields with
    | [field] => sameRef field.expr arg && field.asc = asc && !field.nullsFirst
    | _ => false
  if alreadyTopK then none else some ⟨[⟨arg, asc, false⟩], 1, none⟩

/-- `MinMaxToTopK`; `child` is the operator below the aggregate if it is a `TopK`. -/
def minMaxToTopK (sameRef : Expression → Expression → Bool) (op : AggregateOperator)
    (child : Option TopKOperator) : Option TopKOperator :=
  match op.groupbyExprs, op.aggCalls with
  | [], [call] =>
    match call.args, call.kind with
    | [arg], .min => wrapChild sameRef child arg true
    | [arg], .max => wrapChild sameRef child arg false
    | _, _ => none
  | _, _ => none

instance [Arithmetic] : BinaryCreate where
  binaryCreate ty op := (binaryCreate ty op).map BinaryEvaluatorRef.binaryEval

/-- The comparison by which the accumulator of the aggregate changes its result. -/
def AggKind.replacing : AggKind → BinaryOperator
  | .max => .lt
  | _ => .gt

/-- The first of the values with the least key is none that the comparison puts behind another. -/
def KeysLead [Arithmetic] (fields : List SortField) (op : BinaryOperator)
    (values : List DataValue) : Prop :=
  (∀ v ∈ values, v.isComparable = true) ∧ ∃ v, Leads (keyLe fields fun v => [v]) v values ∧
    ∀ w ∈ values, replaces op v w = .ok false

/-- The order of a sort field. -/
def directed (asc : Bool) (o : Ordering) : Ordering := if asc then o else o.swap

/-- MIN changes its result for a smaller value, MAX for a greater one. -/
def replacingOperator (asc : Bool) : BinaryOperator := if asc then .gt else .lt

def replacingTest (asc : Bool) : Ordering → Bool := if asc then Ordering.isGT else Ordering.isLT

theorem isLE_directed (asc : Bool) (o : Ordering) : (directed asc o).isLE = !replacingTest asc o := by
  cases asc <;> cases o <;> rfl

theorem orderTest_replacingOperator (asc : Bool) :
    orderTest (replacingOperator asc) = some (replacingTest asc) := by
  cases asc <;> rfl

variable {t : LogicalType} {v w : DataValue} {value : Tuple → DataValue} {rows : List Tuple}
  {s : TupleValueSerializableImpl} {o : Ordering} {arg : Expression}

theorem LogicalType.not_tuple (hs : t.serializable = .ok s) (ts : List LogicalType) :
    t ≠ .tuple ts := by
  rintro rfl
  cases hs

/-- Values that are no NaN are ordered by their keys. -/
theorem compare_keyOf_single (asc : Bool) (arg : Expression) (hs : t.serializable = .ok s)
    (hv : Fits v t) (hw : Fits w t) (hvn : v.isNull = false) (hwn : w.isNull = false)
    (nv : v.notNan = true) (nw : w.notNan = true) (ho : partialCmp v w = some o) :
    compare (keyOf [⟨arg, asc, false⟩] [v]) (keyOf [⟨arg, asc, false⟩] [w]) = directed asc o := by
  obtain ⟨a, b, ha, hb, hd⟩ := (⟨arg, asc, false⟩ : SortField).decides_encode_of_agree hvn hwn
    (hv.agree_body_of_notNan hs hw nv nw hvn hwn)
  have hkey : ∀ {x : DataValue} {c : Bytes}, (⟨arg, asc, false⟩ : SortField).encode x = .ok c →
      keyOf [⟨arg, asc, false⟩] [x] = c := by
    intro x c hc
    simp [keyOf, encodeValues, hc]
  rw [hkey ha, hkey hb, hd.compare_eq, SortField.compareValues]
  simp only [hvn, hwn, ho, Option.getD_some]
  cases asc <;> cases o <;> rfl

theorem compare_signed (asc : Bool) (a b : Int) :
    compare (if asc then a else -a) (if asc then b else -b) = directed asc (compare a b) := by
  cases asc with
  | true => rfl
  | false =>
    rcases lt_trichotomy a b with h | rfl | h
    · simp [directed, compare_lt_iff_lt.mpr h, compare_gt_iff_gt.mpr (neg_lt_neg h)]
    · simp [directed]
    · simp [directed, compare_gt_iff_gt.mpr h, compare_lt_iff_lt.mpr (neg_lt_neg h)]

/-- The place of a time of day, by its seconds before its fraction. -/
def timePlace : DataValue → Int
  | .time32 x p =>
    match unpackTime x p with
    | .ok (secs, nanos) => (secs.toNat * 2 ^ 32 + nanos.toNat : Nat)
    | _ => 0
  | _ => 0

def floatPlace : DataValue → Int
  | .float32 u => FloatBits.binary32.place u.toNat
  | .float64 u => FloatBits.binary64.place u.toNat
  | _ => 0

theorem compare_floatPlace (ht : t = .float ∨ t = .double) (hv : Fits v t) (hw : Fits w t)
    (ho : partialCmp v w = some o) : compare (floatPlace v) (floatPlace w) = o := by
  rcases ht with rfl | rfl <;> cases hv <;> cases hw <;>
    simp_all [partialCmp, floatPlace, FloatBits.orderedCmp_eq_compare_place]

theorem compare_timePlace {x y s₁ n₁ s₂ n₂ : UInt32} {p : UInt64}
    (hx : unpackTime x p = .ok (s₁, n₁)) (hy : unpackTime y p = .ok (s₂, n₂)) :
    compare (timePlace (.time32 x p)) (timePlace (.time32 y p)) =
      (compare s₁ s₂).then (compare n₁ n₂) := by
  have hfields := @compare_fields 32 n₁.toNat n₂.toNat s₁.toNat s₂.toNat n₁.toNat_lt n₂.toNat_lt
  rw [compare_uInt32, compare_uInt32, ← hfields, timePlace, timePlace, hx, hy]
  simp only [compare, compareOfLessAndEq, Int.ofNat_lt, Int.natCast_inj]

theorem encodeValues_single (field : SortField) (h : Fits v t) :
    encodeValues [field] [v] = .ok (keyOf [field] [v]) := by
  have hok : ∃ key, field.encode v = .ok key := by
    cases hn : v.isNull with
    | true =>
      cases v <;> cases hn
      exact ⟨_, field.encode_null⟩
    | false =>
      obtain ⟨body, hbody⟩ := h.body_ok
      exact ⟨_, field.encode_of_body hn hbody⟩
  obtain ⟨key, hkey⟩ := hok
  simp [keyOf, encodeValues, hkey]

/-- A NULL comes after every other value. -/
theorem keyLe_null (asc : Bool) (arg : Expression) (hv : Fits v t) (hvn : v.isNull = false)
    (hwn : w.isNull = true) : keyLe [⟨arg, asc, false⟩] (fun v => [v]) w v = false := by
  obtain ⟨body, hbody⟩ := hv.body_ok
  have hkey := (⟨arg, asc, false⟩ : SortField).encode_of_body hvn hbody
  obtain rfl : w = .null := by
    cases w <;> cases hwn
    rfl
  rw [keyLe, keyOf, keyOf, encodeValues, encodeValues, SortField.encode_null, hkey]
  rfl

/-- The values of an expression on rows that are not NULL. -/
def presentValues (value : Tuple → DataValue) (rows : List Tuple) : List DataValue :=
  (rows.map value).filter (!·.isNull)

theorem mem_presentValues :
    v ∈ presentValues value rows ↔ (∃ row ∈ rows, value row = v) ∧ v.isNull = false := by
  simp [presentValues]

/-- The row with the first of the least keys has the first of the least keys of the values that are
not NULL. -/
theorem leads_presentValues {row : Tuple} {asc : Bool}
    (hleads : Leads (keyLe [⟨arg, asc, false⟩] fun row => [value row]) row rows)
    (hfits : ∀ row ∈ rows, Fits (value row) t) (hne : presentValues value rows ≠ []) :
    Leads (keyLe [⟨arg, asc, false⟩] fun v => [v]) (value row) (presentValues value rows) := by
  have hrow : (value row).isNull = false := by
    obtain ⟨v, hv⟩ := exists_mem_of_ne_nil _ hne
    obtain ⟨⟨other, hother, rfl⟩, hn⟩ := mem_presentValues.mp hv
    have hle := hleads.below (preorders_keyLe _ _) hother
    cases hnull : (value row).isNull with
    | false => rfl
    | true =>
      have hlt := keyLe_null asc arg (hfits other hother) hn hnull
      exact absurd (hle.symm.trans hlt) (by simp)
  obtain ⟨p, q, rfl, hp, hq⟩ := hleads
  refine ⟨presentValues value p, presentValues value q, ?_, fun v hv => ?_, fun v hv => ?_⟩
  · simp [presentValues, hrow]
  · obtain ⟨⟨other, hother, rfl⟩, -⟩ := mem_presentValues.mp hv
    exact hp other hother
  · obtain ⟨⟨other, hother, rfl⟩, -⟩ := mem_presentValues.mp hv
    exact hq other hother

/-- The one row that is kept. -/
theorem yields_topK_one {eval : RowEval} (field : SortField)
    (heval : ∀ row ∈ rows, eval field.expr row = .ok (value row))
    (hfits : ∀ row ∈ rows, Fits (value row) t) :
    ∃ kept, Yields (TopK.nextTuple eval) (TopK.ofOperator ⟨[field], 1, none⟩ (rows.map .ok)) kept ∧
      (rows = [] ∧ kept = [] ∨
        ∃ row, kept = [row] ∧ Leads (keyLe [field] fun row => [value row]) row rows) := by
  have hkey : ∀ row ∈ rows, fullKey eval row [field] = .ok (keyOf [field] [value row]) := by
    intro row hrow
    have hvalues : sortValues eval row [field] = .ok [value row] := by
      simp [sortValues, heval row hrow]
    rw [TopK.fullKey_eq hvalues, encodeValues_single field (hfits row hrow)]
  have hsum : 0 + 1 ≤ usizeMax := by decide
  refine ⟨_, TopK.yields_kept ⟨[field], 1, none⟩ hsum hkey, ?_⟩
  cases rows with
  | nil => exact .inl ⟨rfl, rfl⟩
  | cons r rs =>
    refine .inr ⟨_, ?_, leads_least (preorders_keyLe _ _) r rs⟩
    exact foldl_keep_one r rs

/-- What the rule puts below the aggregate. -/
theorem minMaxToTopK_eq_some {sameRef : Expression → Expression → Bool} {call : AggCall}
    {child : Option TopKOperator} {topK : TopKOperator}
    (h : minMaxToTopK sameRef ⟨[], [call]⟩ child = some topK) (hargs : call.args = [arg]) :
    ∃ asc, topK = ⟨[⟨arg, asc, false⟩], 1, none⟩ ∧ call.kind.replacing = replacingOperator asc ∧
      (call.kind = .min ∨ call.kind = .max) := by
  have hwrap : ∀ asc, wrapChild sameRef child arg asc = some topK →
      topK = ⟨[⟨arg, asc, false⟩], 1, none⟩ := by
    intro asc h
    unfold wrapChild at h
    dsimp only at h
    split at h
    · cases h
    · cases h
      rfl
  simp only [minMaxToTopK, hargs] at h
  split at h
  · next hkind =>
    exact ⟨true, hwrap true (by simp_all), by rw [hkind]; rfl, .inl hkind⟩
  · next hkind =>
    exact ⟨false, hwrap false (by simp_all), by rw [hkind]; rfl, .inr hkind⟩
  · cases h

section
variable [Arithmetic] {op : BinaryOperator} {b : Bool}

theorem replaces_eq_ok (hn : v.isNull = false) :
    replaces op v w = .ok b ↔
      ∃ f, evaluatorOf w.logicalType op = some f ∧ f v w = .ok (.boolean b) := by
  rw [replaces, if_neg (by simp [hn])]
  have hmap : BinaryCreate.binaryCreate w.logicalType op = _ := map_binaryCreate w.logicalType op
  rw [hmap]
  cases he : evaluatorOf w.logicalType op with
  | none => simp [bind, Except.bind]
  | some f =>
    simp only [Option.elim, ok_bind, Option.some.injEq, exists_eq_left']
    cases hf : f v w with
    | error e => simp [bind, Except.bind]
    | ok x => cases x <;> simp [bind, Except.bind, pure, Except.pure, throw, throwThe, MonadExceptOf.throw]

/-- The evaluators chosen for a value are those of its type. -/
theorem evaluatorOf_logicalType (h : Fits w t) (hn : w.isNull = false)
    (ht : ∀ ts, t ≠ .tuple ts) : evaluatorOf w.logicalType op = evaluatorOf t op := by
  cases h with
  | null => simp [isNull] at hn
  | char s ty u => cases ty <;> rfl
  | varchar s ty u => cases ty <;> rfl
  | tupleNil => exact absurd rfl (ht _)
  | tupleCons => exact absurd rfl (ht _)
  | _ => rfl

variable {asc : Bool} {values : List DataValue} {call : AggCall} {eval : RowEval} {p : UInt64}
  {r : DataValue}

/-- Values are compared as keys that order them as the operator does. -/
theorem compared_of_key {β : Type} [Ord β] [Std.TransOrd β] (key : DataValue → β)
    (hnull : ∀ v ∈ values, v.isNull = false)
    (h : ∀ v ∈ values, ∀ w ∈ values, ∃ o,
      replaces (replacingOperator asc) v w = .ok (replacingTest asc o) ∧
      compare (key v) (key w) = directed asc o ∧ (o = .eq ↔ eq v w = true)) :
    Compared (replacingOperator asc) (fun v w => (compare (key v) (key w)).isLE) values where
  preorders := preorders_of_key key
  notNull := hnull
  replaces v hv w hw := by
    obtain ⟨o, hr, hk, -⟩ := h v hv w hw
    rw [hr, hk, isLE_directed, Bool.not_not]
  ties v hv w hw := by
    obtain ⟨o, -, hk, he⟩ := h v hv w hw
    have hswap : compare (key w) (key v) = (compare (key v) (key w)).swap :=
      Std.OrientedCmp.eq_swap
    rw [ties, hswap, hk]
    cases o <;> cases asc <;> simp_all [directed]

theorem evaluatorOf_replacing (asc : Bool) (hs : t.serializable = .ok s) (hb : t ≠ .boolean) :
    ∃ f, evaluatorOf t (replacingOperator asc) = some f := by
  cases t with
  | boolean => exact absurd rfl hb
  | sqlNull | tuple => cases hs
  | _ => cases asc <;> exact ⟨_, rfl⟩

/-- What the comparison of two values of a type says is what its evaluator says. -/
theorem replaces_of_evaluator (hs : t.serializable = .ok s) (hb : t ≠ .boolean)
    (hv : v.isNull = false) (hw : Fits w t) (hwn : w.isNull = false)
    (h : ∀ f, evaluatorOf t (replacingOperator asc) = some f →
      f v w = .ok (.boolean (replacingTest asc o))) :
    replaces (replacingOperator asc) v w = .ok (replacingTest asc o) := by
  obtain ⟨f, hf⟩ := evaluatorOf_replacing asc hs hb
  refine (replaces_eq_ok hv).mpr ⟨f, ?_, h f hf⟩
  rw [evaluatorOf_logicalType hw hwn (LogicalType.not_tuple hs), hf]

/-- The comparison of a type that follows the order of values. -/
theorem replaces_of_followsOrder (hs : t.serializable = .ok s) (hfollows : t.followsOrder = true)
    (hv : Fits v t) (hw : Fits w t) (hvn : v.isNull = false) (hwn : w.isNull = false)
    (ho : partialCmp v w = some o) :
    replaces (replacingOperator asc) v w = .ok (replacingTest asc o) := by
  have hb : t ≠ .boolean := by
    rintro rfl
    cases hfollows
  refine replaces_of_evaluator hs hb hvn hw hwn fun f hf => ?_
  rw [evaluatorOf_order hfollows (orderTest_replacingOperator asc) hf hv hw, sqlCmp,
    if_neg (by simp [hvn, hwn]), ho]
  rfl

/-- Times of one precision are compared by their seconds before their fractions. -/
theorem replaces_time {x y s₁ n₁ s₂ n₂ : UInt32} (hx : unpackTime x p = .ok (s₁, n₁))
    (hy : unpackTime y p = .ok (s₂, n₂)) :
    replaces (replacingOperator asc) (.time32 x p) (.time32 y p) =
      .ok (replacingTest asc ((compare s₁ s₂).then (compare n₁ n₂))) := by
  have hs : (LogicalType.time none).serializable = .ok (.time none) := rfl
  refine replaces_of_evaluator hs (by simp) rfl (.time32 y p none) rfl fun f hf => ?_
  have heq : f = timeOrderBinary (replacingTest asc) := by
    cases asc <;> cases hf <;> rfl
  rw [heq, timeOrderBinary, hx, hy]
  rfl

/-- Readable points in time of one precision are compared as they are stored. -/
theorem replaces_timestamp {x y : Int64} {z z' : Bool} (hx : (time64 x p z).isComparable = true)
    (hy : (time64 y p z').isComparable = true) :
    replaces (replacingOperator asc) (.time64 x p z) (.time64 y p z') =
      .ok (replacingTest asc (compare x y)) := by
  have hs : (LogicalType.timeStamp none false).serializable = .ok (.timestamp none false) := rfl
  refine replaces_of_evaluator hs (by simp) rfl (.time64 y p z' none false) rfl fun f hf => ?_
  have heq : f = time64Binary (replacingTest asc) := by
    cases asc <;> cases hf <;> rfl
  rw [heq]
  exact time64Binary_eq _ hx hy

section Compared
variable (hnull : ∀ v ∈ values, v.isNull = false)
include hnull

/-- Keys that order values as the partial order does. -/
theorem compared_of_followsOrder {β : Type} [Ord β] [Std.TransOrd β] (key : DataValue → β)
    (hs : t.serializable = .ok s) (hfollows : t.followsOrder = true)
    (hfits : ∀ v ∈ values, Fits v t)
    (hkey : ∀ v ∈ values, ∀ w ∈ values, ∀ o, partialCmp v w = some o →
      compare (key v) (key w) = directed asc o) :
    Compared (replacingOperator asc) (fun v w => (compare (key v) (key w)).isLE) values := by
  refine compared_of_key key hnull fun v hv w hw => ?_
  obtain ⟨o, ho⟩ := Option.isSome_iff_exists.mp
    ((hfits v hv).partialCmp_isSome (hfits w hw) (hnull v hv) (hnull w hw))
  refine ⟨o, replaces_of_followsOrder hs hfollows (hfits v hv) (hfits w hw) (hnull v hv)
    (hnull w hw) ho, hkey v hv w hw o ho, ?_⟩
  constructor
  · rintro rfl
    exact eq_of_partialCmp v w ho
  · intro h
    rw [(hfits v hv).partialCmp_of_eq h] at ho
    cases ho
    rfl

theorem compared_of_notNan (arg : Expression) (hs : t.serializable = .ok s)
    (hfollows : t.followsOrder = true) (hfits : ∀ v ∈ values, Fits v t)
    (hnan : ∀ v ∈ values, v.notNan = true) :
    Compared (replacingOperator asc) (keyLe [⟨arg, asc, false⟩] fun v => [v]) values :=
  compared_of_followsOrder hnull (fun v => keyOf [⟨arg, asc, false⟩] [v]) hs hfollows hfits
    fun v hv w hw _ ho => compare_keyOf_single asc arg hs (hfits v hv) (hfits w hw) (hnull v hv)
      (hnull w hw) (hnan v hv) (hnan w hw) ho

theorem compared_of_float (hs : t.serializable = .ok s) (ht : t = .float ∨ t = .double)
    (hfits : ∀ v ∈ values, Fits v t) : ∃ le, Compared (replacingOperator asc) le values := by
  have hfollows : t.followsOrder = true := by
    rcases ht with rfl | rfl <;> rfl
  refine ⟨_, compared_of_followsOrder hnull
    (fun v => if asc then floatPlace v else -floatPlace v) hs hfollows hfits fun v hv w hw o ho => ?_⟩
  rw [compare_signed, compare_floatPlace ht (hfits v hv) (hfits w hw) ho]

theorem compared_of_time {p : Option UInt64} (hp : p.getD 0 ≤ 9)
    (htyped : ∀ v ∈ values, HasType v (.time p)) :
    ∃ le, Compared (replacingOperator asc) le values := by
  have hread : ∀ v ∈ values, ∃ x secs nanos, v = .time32 x (p.getD 0) ∧
      unpackTime x (p.getD 0) = .ok (secs, nanos) := by
    intro v hv
    rcases (htyped v hv).time_cases with rfl | ⟨x, rfl⟩
    · simpa [isNull] using hnull _ hv
    · obtain ⟨k, u, hsplit, -⟩ := split_of_le hp
      obtain ⟨secs, nanos, h, -⟩ := unpackTime_spec hsplit x
      exact ⟨x, secs, nanos, rfl, h⟩
  refine ⟨_, compared_of_key (fun v => if asc then timePlace v else -timePlace v) hnull
    fun v hv w hw => ?_⟩
  obtain ⟨x, s₁, n₁, rfl, h₁⟩ := hread v hv
  obtain ⟨y, s₂, n₂, rfl, h₂⟩ := hread w hw
  refine ⟨_, replaces_time h₁ h₂, ?_, ?_⟩
  · rw [compare_signed, compare_timePlace h₁ h₂]
  · rw [eq, decide_eq_true_iff]
    exact compare_unpacked_eq hp h₁ h₂

theorem compared_of_timestamp {p : Option UInt64} {zone : Bool} (arg : Expression)
    (htyped : ∀ v ∈ values, HasType v (.timeStamp p zone)) (hread : ∀ v ∈ values, v.isComparable = true) :
    ∃ le, Compared (replacingOperator asc) le values := by
  have hform : ∀ v ∈ values, ∃ x, v = .time64 x (p.getD 0) zone := by
    intro v hv
    rcases (htyped v hv).timestamp_cases with rfl | hform
    · simpa [isNull] using hnull _ hv
    · exact hform
  refine ⟨_, compared_of_key (fun v => keyOf [⟨arg, asc, false⟩] [v]) hnull fun v hv w hw => ?_⟩
  have hs : (LogicalType.timeStamp p zone).serializable = .ok (.timestamp p zone) := rfl
  obtain ⟨x, rfl⟩ := hform v hv
  obtain ⟨y, rfl⟩ := hform w hw
  refine ⟨compare x y, replaces_timestamp (hread _ hv) (hread _ hw),
    compare_keyOf_single asc arg hs (htyped _ hv).fits (htyped _ hw).fits rfl rfl rfl rfl rfl, ?_⟩
  rw [eq, decide_eq_true_iff, Std.compare_eq_iff_eq]

/-- Readable values of a column are ordered by the comparison. -/
theorem compared_of_typed (arg : Expression) (asc : Bool) (hs : t.serializable = .ok s)
    (htyped : ∀ v ∈ values, HasType v t) (hread : ∀ v ∈ values, v.isComparable = true)
    (hne : values ≠ []) : ∃ le, Compared (replacingOperator asc) le values := by
  have hfits : ∀ v ∈ values, Fits v t := fun v hv => (htyped v hv).fits
  obtain ⟨v, hv⟩ := exists_mem_of_ne_nil values hne
  cases t with
  | boolean =>
    have hvn := hnull v hv
    have hvr := hread v hv
    cases hfits v hv <;> simp [isNull, isComparable] at hvn hvr
  | sqlNull | tuple => cases hs
  | float => exact compared_of_float hnull hs (.inl rfl) hfits
  | double => exact compared_of_float hnull hs (.inr rfl) hfits
  | time p =>
    have hvn := hnull v hv
    have hvr := hread v hv
    obtain ⟨hv', hd⟩ := htyped v hv
    cases hv' with
    | null => simp [isNull] at hvn
    | time32 x q =>
      cases hd
      exact compared_of_time hnull (by simpa [isComparable] using hvr) htyped
  | timeStamp p zone => exact compared_of_timestamp hnull arg htyped hread
  | _ =>
    refine ⟨_, compared_of_notNan hnull arg hs rfl hfits fun v hv => ?_⟩
    cases hfits v hv <;> rfl

end Compared

/-- No comparison with a value that is not readable gives a truth value. -/
theorem replaces_fails (hs : t.serializable = .ok s) (hv : HasType v t) (hw : HasType w t)
    (hvn : v.isNull = false) (hwn : w.isNull = false)
    (hread : ¬ (v.isComparable = true ∧ w.isComparable = true)) (b : Bool) :
    replaces (replacingOperator asc) v w ≠ .ok b := by
  intro h
  obtain ⟨f, hf, h⟩ := (replaces_eq_ok hvn).mp h
  rw [evaluatorOf_logicalType hw.fits hwn (LogicalType.not_tuple hs)] at hf
  obtain ⟨hv, hdv⟩ := hv
  obtain ⟨hw, hdw⟩ := hw
  cases hv with
  | null => simp [isNull] at hvn
  | boolean => cases asc <;> cases hf
  | time32 x p q =>
    cases hw with
    | null => simp [isNull] at hwn
    | time32 y =>
      cases hdv
      cases hdw
      have heq : f = timeOrderBinary (replacingTest asc) := by
        cases asc <;> cases hf <;> rfl
      rw [heq, timeOrderBinary] at h
      obtain ⟨_, hu, -⟩ := bind_eq_ok.mp h
      obtain ⟨_, hu, -⟩ := bind_eq_ok.mp hu
      rw [unitNanos, if_neg (by simpa [isComparable] using hread)] at hu
      cases hu
  | time64 x p z q =>
    cases hw with
    | null => simp [isNull] at hwn
    | time64 y p' z' =>
      have heq : f = time64Binary (replacingTest asc) := by
        cases asc <;> cases hf <;> rfl
      have hx : time64? (.time64 x p z) = some (x, p) := rfl
      have hy : time64? (.time64 y p' z') = some (y, p') := rfl
      rw [heq, time64Binary, nullableBinary_some hx hy] at h
      obtain ⟨t₁, t₂, h₁, h₂, h⟩ := bind_bind_eq_ok.mp h
      cases t₁ with
      | none => cases h
      | some n₁ =>
        cases t₂ with
        | none => cases h
        | some n₂ =>
          exact hread ⟨isComparable_time64.mpr ⟨n₁, h₁⟩, isComparable_time64.mpr ⟨n₂, h₂⟩⟩
  | tupleNil | tupleCons => cases hs
  | _ =>
    cases hw with
    | null => simp [isNull] at hwn
    | _ => exact hread ⟨rfl, rfl⟩

/-- A scan of values of one type finds one that equals `r` exactly when none is put before `r`. -/
theorem minMaxOver_eq_iff {m : DataValue} {l : List DataValue} (arg : Expression)
    (hs : t.serializable = .ok s) (htyped : ∀ v ∈ m :: l, HasType v t)
    (hnull : ∀ v ∈ m :: l, v.isNull = false) (hr : r ∈ m :: l) (hl : l ≠ []) :
    (∃ x, minMaxOver (replacingOperator asc) m l = .ok x ∧ eq x r = true) ↔
      (∀ v ∈ m :: l, v.isComparable = true) ∧
        ∀ w ∈ m :: l, replaces (replacingOperator asc) r w = .ok false := by
  by_cases hread : ∀ v ∈ m :: l, v.isComparable = true
  · obtain ⟨le, hcmp⟩ := compared_of_typed hnull arg asc hs htyped hread (by simp)
    have hleads := leads_least hcmp.preorders m l
    have hscan := hcmp.minMaxOver_eq mem_cons_self fun v hv => mem_cons_of_mem m hv
    rw [hscan]
    simp only [Except.ok.injEq, exists_eq_left']
    rw [← hcmp.ties _ hleads.mem r hr, StableSort.ties, hleads.below hcmp.preorders hr,
      Bool.true_and]
    constructor
    · intro hle
      refine ⟨hread, fun w hw => ?_⟩
      rw [hcmp.replaces r hr w hw, hcmp.preorders.trans r _ w hle (hleads.below hcmp.preorders hw)]
      rfl
    · rintro ⟨-, hall⟩
      have hx := hall _ hleads.mem
      rw [hcmp.replaces r hr _ hleads.mem] at hx
      simpa using hx
  · obtain ⟨v, hv⟩ := not_forall.mp hread
    obtain ⟨hv, hbad⟩ := Classical.not_imp.mp hv
    constructor
    · rintro ⟨x, hx, -⟩
      have hfail : ∀ v ∈ m :: l, ∀ w ∈ m :: l, ¬ (v.isComparable = true ∧ w.isComparable = true) →
          ∀ b, replaces (replacingOperator asc) v w ≠ .ok b := fun v hv w hw =>
        replaces_fails hs (htyped v hv) (htyped w hw) (hnull v hv) (hnull w hw)
      exact absurd hx (minMaxOver_fails hnull hfail hl ⟨v, hv, hbad⟩ x)
    · rintro ⟨hread, -⟩
      exact absurd (hread v hv) hbad

theorem yields_minMax [Conversions] {x : DataValue} (hargs : call.args = [arg])
    (hkind : call.kind = .min ∨ call.kind = .max)
    (heval : ∀ row ∈ rows, eval arg row = .ok (value row)) :
    Yields (nextTuple eval) (ofOperator [call] (rows.map .ok)) [⟨none, [x]⟩] ↔
      minMaxOver call.kind.replacing .null (presentValues value rows) = .ok x := by
  have hcreate : createAccumulators [call] = .ok [.minMax .null call.kind.replacing] := by
    rcases hkind with h | h <;> simp [createAccumulators, createAccumulator, h, AggKind.replacing]
  have hrow : aggregateRow eval [call] (rows.map .ok) =
      (minMaxOver call.kind.replacing .null (presentValues value rows)).map
        fun r => ⟨none, [r]⟩ := by
    rw [aggregateRow, hcreate, ok_bind, collect_minMax hargs heval,
      minMaxOver_filter, presentValues]
    cases minMaxOver call.kind.replacing .null ((rows.map value).filter (!·.isNull)) <;> rfl
  rw [yields_iff, hrow]
  cases minMaxOver call.kind.replacing .null (presentValues value rows) with
  | error e => simp [Except.map]
  | ok r => simp [Except.map, eq_comm]

theorem isComparable_of_followsOrder (hfollows : t.followsOrder = true) (h : Fits v t) :
    v.isComparable = true := by
  cases h <;> first | rfl | cases hfollows

theorem keysLead_of_notNan (arg : Expression) (asc : Bool) (hs : t.serializable = .ok s)
    (hfollows : t.followsOrder = true) (hfits : ∀ v ∈ values, Fits v t)
    (hnull : ∀ v ∈ values, v.isNull = false) (hnan : ∀ v ∈ values, v.notNan = true)
    (hne : values ≠ []) : KeysLead [⟨arg, asc, false⟩] (replacingOperator asc) values := by
  have hcmp := @compared_of_notNan _ _ _ asc _ hnull arg hs hfollows hfits hnan
  refine ⟨fun v hv => isComparable_of_followsOrder hfollows (hfits v hv), ?_⟩
  cases values with
  | nil => exact absurd rfl hne
  | cons m l =>
    have hleads := leads_least hcmp.preorders m l
    refine ⟨_, hleads, fun w hw => ?_⟩
    rw [hcmp.replaces _ hleads.mem w hw, hleads.below hcmp.preorders hw]
    rfl

/-- The scans of all values and of the kept one. -/
theorem minMaxOver_kept_iff (arg : Expression) (hs : t.serializable = .ok s)
    (htyped : ∀ v ∈ values, HasType v t) (hnull : ∀ v ∈ values, v.isNull = false)
    (hr : Leads (keyLe [⟨arg, asc, false⟩] fun v => [v]) r values) :
    (∃ x, minMaxOver (replacingOperator asc) .null values = .ok x ∧ eq x r = true) ↔
      t.followsOrder = true ∧ (∀ v ∈ values, v.notNan = true) ∨ values.length ≤ 1 ∨
        KeysLead [⟨arg, asc, false⟩] (replacingOperator asc) values := by
  match values, hr.mem with
  | [m], hmem =>
    obtain rfl := mem_singleton.mp hmem
    rw [minMaxOver_first (hnull r (by simp))]
    simp [minMaxOver, DataValue.eq_self]
  | m :: w :: l, hmem =>
    rw [minMaxOver_first (hnull m (by simp)), minMaxOver_eq_iff arg hs htyped hnull hmem (by simp)]
    constructor
    · rintro ⟨hread, hall⟩
      exact .inr (.inr ⟨hread, r, hr, hall⟩)
    · have hlead : KeysLead [⟨arg, asc, false⟩] (replacingOperator asc) (m :: w :: l) →
          (∀ v ∈ m :: w :: l, v.isComparable = true) ∧
            ∀ v ∈ m :: w :: l, replaces (replacingOperator asc) r v = .ok false := by
        rintro ⟨hread, r', hr', hall⟩
        obtain rfl := hr.unique hr'
        exact ⟨hread, hall⟩
      rintro (⟨hfollows, hnan⟩ | hlen | hkeys)
      · exact hlead (keysLead_of_notNan arg asc hs hfollows (fun v hv => (htyped v hv).fits) hnull
          hnan (by simp))
      · simp at hlen
      · exact hlead hkeys

/-- Where the rule fires, the aggregate of the one kept row is that of all rows exactly for types
that compare as their keys do and no NaN, for at most one value, or if the first of the least keys
belongs to a value that the comparison puts behind none. -/
theorem minMaxToTopK_same_iff [Conversions] (sameRef : Expression → Expression → Bool)
    (call : AggCall) (arg : Expression) (child : Option TopKOperator) (topK : TopKOperator)
    (t : LogicalType) (s : TupleValueSerializableImpl) (eval : RowEval)
    (value : Tuple → DataValue) (rows : List Tuple)
    (hfires : minMaxToTopK sameRef ⟨[], [call]⟩ child = some topK) (hargs : call.args = [arg])
    (hs : t.serializable = .ok s) (heval : ∀ row ∈ rows, eval arg row = .ok (value row))
    (htyped : ∀ row ∈ rows, HasType (value row) t) :
    ∃ kept, Yields (TopK.nextTuple eval) (TopK.ofOperator topK (rows.map .ok)) kept ∧
      ((∃ x y,
        Yields (SimpleAgg.nextTuple eval) (SimpleAgg.ofOperator [call] (rows.map .ok))
          [⟨none, [x]⟩] ∧
        Yields (SimpleAgg.nextTuple eval) (SimpleAgg.ofOperator [call] (kept.map .ok))
          [⟨none, [y]⟩] ∧ eq x y = true) ↔
        t.followsOrder = true ∧ (∀ v ∈ presentValues value rows, v.notNan = true) ∨
          (presentValues value rows).length ≤ 1 ∨
          KeysLead topK.sortFields call.kind.replacing (presentValues value rows)) := by
  obtain ⟨asc, rfl, hop, hkind⟩ := minMaxToTopK_eq_some hfires hargs
  have hfits : ∀ row ∈ rows, Fits (value row) t := fun row hrow => (htyped row hrow).fits
  obtain ⟨kept, hkept, hcases⟩ := yields_topK_one ⟨arg, asc, false⟩ heval hfits
  refine ⟨kept, hkept, ?_⟩
  have hkeptRows : ∀ row ∈ kept, row ∈ rows := by
    rcases hcases with ⟨rfl, rfl⟩ | ⟨row, rfl, hleads⟩
    · simp
    · simpa using hleads.mem
  simp only [yields_minMax hargs hkind heval,
    yields_minMax hargs hkind fun row hrow => heval row (hkeptRows row hrow), hop]
  by_cases hnone : presentValues value rows = []
  · have hkeptNone : presentValues value kept = [] := by
      refine List.eq_nil_iff_forall_not_mem.mpr fun v hv => ?_
      obtain ⟨⟨row, hrow, rfl⟩, hn⟩ := mem_presentValues.mp hv
      have hmem := mem_presentValues.mpr ⟨⟨row, hkeptRows row hrow, rfl⟩, hn⟩
      rw [hnone] at hmem
      cases hmem
    rw [hnone, hkeptNone]
    simp [minMaxOver, DataValue.eq_self]
  · rcases hcases with ⟨rfl, -⟩ | ⟨row, rfl, hleads⟩
    · exact absurd rfl hnone
    · have hr := leads_presentValues hleads hfits hnone
      have hrn := (mem_presentValues.mp hr.mem).2
      have hone : presentValues value [row] = [value row] := by simp [presentValues, hrn]
      rw [hone, minMaxOver_first hrn]
      simp only [minMaxOver, Except.ok.injEq, exists_and_left, exists_eq_left']
      refine minMaxOver_kept_iff arg hs (fun v hv => ?_) (fun v hv => ?_) hr
      · obtain ⟨⟨row, hrow, rfl⟩, -⟩ := mem_presentValues.mp hv
        exact htyped row hrow
      · exact (mem_presentValues.mp hv).2

end

/-- The call of MIN on the first column. -/
def minOfFirst : AggCall := ⟨false, .min, [.constant .null], .integer⟩

theorem minMaxToTopK_same_integers :
    let _ := Arithmetic.refusing
    let _ := Conversions.refusing
    ∃ topK kept, minMaxToTopK (fun _ _ => false) ⟨[], [minOfFirst]⟩ none = some topK ∧
      Yields (TopK.nextTuple firstValue) (TopK.ofOperator topK (fourRows.map .ok)) kept ∧
      ∃ x y, Yields (SimpleAgg.nextTuple firstValue)
          (SimpleAgg.ofOperator [minOfFirst] (fourRows.map .ok)) [⟨none, [x]⟩] ∧
        Yields (SimpleAgg.nextTuple firstValue)
          (SimpleAgg.ofOperator [minOfFirst] (kept.map .ok)) [⟨none, [y]⟩] ∧ eq x y = true := by
  intro a c
  have htyped : ∀ row ∈ fourRows, HasType (row.values.headD .null) .integer := by
    intro row hr
    simp only [fourRows, List.mem_cons, List.not_mem_nil, or_false] at hr
    rcases hr with rfl | rfl | rfl | rfl
    · exact ⟨.int32 7, rfl⟩
    · exact ⟨.null _, rfl⟩
    · exact ⟨.int32 8, rfl⟩
    · exact ⟨.int32 7, rfl⟩
  obtain ⟨kept, hkept, hiff⟩ := minMaxToTopK_same_iff (fun _ _ => false) minOfFirst
    (.constant .null) none _ .integer .int32 firstValue (fun row => row.values.headD .null)
    fourRows rfl rfl rfl (fun _ _ => rfl) htyped
  exact ⟨_, kept, rfl, hkept, hiff.mpr (.inl ⟨rfl, by decide⟩)⟩

/-- One second and half a second: the word of the half second is the greater one. -/
theorem minMaxToTopK_half_second :
    let _ := Arithmetic.refusing
    let _ := Conversions.refusing
    ∃ topK, minMaxToTopK (fun _ _ => false) ⟨[], [minOfFirst]⟩ none = some topK ∧
      packTime 1 0 1 = .ok 1 ∧ packTime 0 500000000 1 = .ok 0x50000000 ∧
      Yields (TopK.nextTuple firstValue)
        (TopK.ofOperator topK [.ok ⟨none, [.time32 1 1]⟩, .ok ⟨none, [.time32 0x50000000 1]⟩])
        [⟨none, [.time32 1 1]⟩] ∧
      Yields (SimpleAgg.nextTuple firstValue)
        (SimpleAgg.ofOperator [minOfFirst]
          [.ok ⟨none, [.time32 1 1]⟩, .ok ⟨none, [.time32 0x50000000 1]⟩])
        [⟨none, [.time32 0x50000000 1]⟩] ∧
      Yields (SimpleAgg.nextTuple firstValue)
        (SimpleAgg.ofOperator [minOfFirst] [.ok ⟨none, [.time32 1 1]⟩])
        [⟨none, [.time32 1 1]⟩] ∧
      eq (.time32 0x50000000 1) (.time32 1 1) = false := by
  intro a c
  exact ⟨_, rfl, rfl, rfl, .more rfl (.done rfl), .more rfl (.done rfl), .more rfl (.done rfl), rfl⟩

end KiteSQL
