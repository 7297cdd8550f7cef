import KiteSQL.Types.DecimalCode
import KiteSQL.Types.StringCode
import KiteSQL.Types.Typing

/-! The key encoding is an order embedding of the values of one type. -/
namespace KiteSQL.DataValue

open LexCode Endian LogicalType List UInt64 UInt32

variable {x y : DataValue} {xs ys : List DataValue} {t : LogicalType} {ts us : List LogicalType}
  {u : Bytes} {o : Option Ordering}

theorem compare_int8 (a b : Int8) :
    compare a b = compare (a.toUInt8 ^^^ 0x80).toNat (b.toUInt8 ^^^ 0x80).toNat := by
  have h : compare a b = compare a.toInt b.toInt := by
    simp only [compare, compareOfLessAndEq, Int8.lt_iff_toInt_lt, ← Int8.toInt_inj]
  rw [h]
  exact (compare_xor_intMin (w := 8) (by decide) a.toBitVec b.toBitVec).symm

theorem compare_int16 (a b : Int16) :
    compare a b = compare (a.toUInt16 ^^^ 0x8000).toNat (b.toUInt16 ^^^ 0x8000).toNat := by
  have h : compare a b = compare a.toInt b.toInt := by
    simp only [compare, compareOfLessAndEq, Int16.lt_iff_toInt_lt, ← Int16.toInt_inj]
  rw [h]
  exact (compare_xor_intMin (w := 16) (by decide) a.toBitVec b.toBitVec).symm

theorem compare_int32 (a b : Int32) :
    compare a b = compare (a.toUInt32 ^^^ 0x80000000).toNat (b.toUInt32 ^^^ 0x80000000).toNat := by
  have h : compare a b = compare a.toInt b.toInt := by
    simp only [compare, compareOfLessAndEq, Int32.lt_iff_toInt_lt, ← Int32.toInt_inj]
  rw [h]
  exact (compare_xor_intMin (w := 32) (by decide) a.toBitVec b.toBitVec).symm

theorem compare_int64 (a b : Int64) :
    compare a b = compare (a.toUInt64 ^^^ 0x8000000000000000).toNat
      (b.toUInt64 ^^^ 0x8000000000000000).toNat := by
  have h : compare a b = compare a.toInt b.toInt := by
    simp only [compare, compareOfLessAndEq, Int64.lt_iff_toInt_lt, ← Int64.toInt_inj]
  rw [h]
  exact (compare_xor_intMin (w := 64) (by decide) a.toBitVec b.toBitVec).symm

theorem compare_uInt8 (a b : UInt8) : compare a b = compare a.toNat b.toNat := by
  simp only [compare, compareOfLessAndEq, UInt8.lt_iff_toNat_lt, ← UInt8.toNat_inj]

theorem compare_uInt16 (a b : UInt16) : compare a b = compare a.toNat b.toNat := by
  simp only [compare, compareOfLessAndEq, UInt16.lt_iff_toNat_lt, ← UInt16.toNat_inj]

theorem compare_uInt32 (a b : UInt32) : compare a b = compare a.toNat b.toNat := by
  simp only [compare, compareOfLessAndEq, UInt32.lt_iff_toNat_lt, ← UInt32.toNat_inj]

theorem compare_uInt64 (a b : UInt64) : compare a b = compare a.toNat b.toNat := by
  simp only [compare, compareOfLessAndEq, UInt64.lt_iff_toNat_lt, ← UInt64.toNat_inj]

/-- Two encodings that succeed and decide, whatever follows them, the order of two values. -/
def Agree (a b : Result Bytes) (o : Option Ordering) : Prop :=
  ∃ u v p, a = .ok u ∧ b = .ok v ∧ o = some p ∧ Decides u v p

theorem agree_word {n v w : Nat} {o : Ordering} (hv : v < 256 ^ n) (hw : w < 256 ^ n)
    (h : o = compare v w) : Agree (.ok (toBeBytes n v)) (.ok (toBeBytes n w)) (some o) :=
  ⟨_, _, _, rfl, rfl, rfl, (decides_toBeBytes hv hw).of_eq h.symm⟩

theorem compare_bool (a b : Bool) :
    compare a b = compare (if a then 0x31 else 0x30 : UInt8) (if b then 0x31 else 0x30) := by
  cases a <;> cases b <;> rfl

theorem memcomparableEncode_null : memcomparableEncode .null = .ok [nullTag] := rfl

theorem memcomparableEncode_of_body (hn : x.isNull = false) (hu : memcomparableBody x = .ok u) :
    memcomparableEncode x = .ok (notNullTag :: u) := by
  simp [memcomparableEncode, memcomparableEncodeWithNullOrder, tagged, hn, hu]

theorem memcomparableEncodeAll_cons {us : Bytes} (hu : memcomparableEncode x = .ok u)
    (hus : memcomparableEncodeAll xs = .ok us) :
    memcomparableEncodeAll (x :: xs) = .ok (u ++ us) := by
  change (memcomparableEncode x >>= fun b => _) = _
  rw [hu, hus]
  rfl

/-- A value is NULL or is encoded by the tag and its body. -/
theorem encode_cases (hu : memcomparableBody x = .ok u) :
    x = .null ∧ memcomparableEncode x = .ok [nullTag] ∨
      x.isNull = false ∧ memcomparableEncode x = .ok (notNullTag :: u) := by
  cases hn : x.isNull with
  | true =>
    rw [isNull_iff] at hn
    subst hn
    exact Or.inl ⟨rfl, rfl⟩
  | false => exact Or.inr ⟨rfl, memcomparableEncode_of_body hn hu⟩

theorem Fits.body_ok (h : Fits x t) : ∃ u, memcomparableBody x = .ok u := by
  induction h with
  | decimal d p s =>
    obtain ⟨u, hu, -⟩ := serializeDecimal_encodes d
    exact ⟨u, hu⟩
  | tupleCons _ _ ihv ihs =>
    obtain ⟨u, hu⟩ := ihv
    obtain ⟨us, hus⟩ := ihs
    obtain ⟨-, he⟩ | ⟨-, he⟩ := encode_cases hu
    · exact ⟨_, memcomparableEncodeAll_cons he hus⟩
    · exact ⟨_, memcomparableEncodeAll_cons he hus⟩
  | _ => exact ⟨_, rfl⟩

theorem nullsLast_of_ne (hx : x.isNull = false) (hy : y.isNull = false) : nullsLast x y o = o := by
  cases x <;> cases y <;> simp_all [nullsLast, isNull]

theorem nullsLast_null_left (hy : y.isNull = false) : nullsLast .null y o = some .gt := by
  cases y <;> simp_all [nullsLast, isNull]

theorem nullsLast_null_right (hx : x.isNull = false) : nullsLast x .null o = some .lt := by
  cases x <;> simp_all [nullsLast, isNull]

/-- The tags put NULL behind all other values. -/
theorem agree_encode (hx : ∃ u, memcomparableBody x = .ok u) (hy : ∃ v, memcomparableBody y = .ok v)
    (h : x.isNull = false → y.isNull = false →
      Agree (memcomparableBody x) (memcomparableBody y) (partialCmp x y)) :
    Agree (memcomparableEncode x) (memcomparableEncode y) (tupleElementPartialCmp x y) := by
  obtain ⟨u, hu⟩ := hx
  obtain ⟨v, hv⟩ := hy
  unfold tupleElementPartialCmp
  obtain ⟨rfl, hex⟩ | ⟨nx, hex⟩ := encode_cases hu <;>
    obtain ⟨rfl, hey⟩ | ⟨ny, hey⟩ := encode_cases hv
  · exact ⟨_, _, _, hex, hey, rfl, decides_singleton nullTag nullTag⟩
  · rw [nullsLast_null_left ny]
    exact ⟨_, _, _, hex, hey, rfl, decides_cons_of_ne (x := nullTag) (y := notNullTag) (by decide)⟩
  · rw [nullsLast_null_right nx]
    exact ⟨_, _, _, hex, hey, rfl, decides_cons_of_ne (x := notNullTag) (y := nullTag) (by decide)⟩
  · rw [nullsLast_of_ne nx ny]
    obtain ⟨u', v', p, hu', hv', hp, hd⟩ := h nx ny
    rw [hu] at hu'
    rw [hv] at hv'
    cases hu'
    cases hv'
    exact ⟨_, _, p, hex, hey, hp, hd.cons notNullTag⟩

theorem agree_encodeAll_cons
    (h : Agree (memcomparableEncode x) (memcomparableEncode y) (tupleElementPartialCmp x y))
    (hs : Agree (memcomparableEncodeAll xs) (memcomparableEncodeAll ys)
      (tuplePartialCmp xs ys false false)) :
    Agree (memcomparableEncodeAll (x :: xs)) (memcomparableEncodeAll (y :: ys))
      (tuplePartialCmp (x :: xs) (y :: ys) false false) := by
  obtain ⟨u, v, p, hu, hv, hp, hd⟩ := h
  obtain ⟨us, vs, q, hus, hvs, hq, hds⟩ := hs
  refine ⟨_, _, p.then q, memcomparableEncodeAll_cons hu hus, memcomparableEncodeAll_cons hv hvs,
    ?_, hd.append hds⟩
  unfold tupleElementPartialCmp at hp
  rw [tuplePartialCmp, hp]
  cases p <;> simp [hq]

/-- Encodings of values of one type that are not NULL decide the order of the values. -/
theorem Fits.agree_body (hx : Fits x t) (hy : Fits y t) (ht : t.floatFree = true)
    (nx : x.isNull = false) (ny : y.isNull = false) :
    Agree (memcomparableBody x) (memcomparableBody y) (partialCmp x y) := by
  induction hx generalizing y with
  | null t => simp [isNull] at nx
  | float32 u => simp [floatFree] at ht
  | float64 u => simp [floatFree] at ht
  | boolean v =>
    cases hy with
    | null => simp [isNull] at ny
    | boolean w =>
      exact ⟨_, _, _, rfl, rfl, rfl, (decides_singleton _ _).of_eq (compare_bool v w).symm⟩
  | int8 v =>
    cases hy with
    | null => simp [isNull] at ny
    | int8 w => exact agree_word (UInt8.toNat_lt _) (UInt8.toNat_lt _) (compare_int8 v w)
  | int16 v =>
    cases hy with
    | null => simp [isNull] at ny
    | int16 w => exact agree_word (UInt16.toNat_lt _) (UInt16.toNat_lt _) (compare_int16 v w)
  | int32 v =>
    cases hy with
    | null => simp [isNull] at ny
    | int32 w => exact agree_word (toNat_lt _) (toNat_lt _) (compare_int32 v w)
  | int64 v =>
    cases hy with
    | null => simp [isNull] at ny
    | int64 w => exact agree_word (toNat_lt _) (toNat_lt _) (compare_int64 v w)
  | uInt8 v =>
    cases hy with
    | null => simp [isNull] at ny
    | uInt8 w => exact agree_word (UInt8.toNat_lt _) (UInt8.toNat_lt _) (compare_uInt8 v w)
  | uInt16 v =>
    cases hy with
    | null => simp [isNull] at ny
    | uInt16 w => exact agree_word (UInt16.toNat_lt _) (UInt16.toNat_lt _) (compare_uInt16 v w)
  | uInt32 v =>
    cases hy with
    | null => simp [isNull] at ny
    | uInt32 w => exact agree_word (toNat_lt _) (toNat_lt _) (compare_uInt32 v w)
  | uInt64 v =>
    cases hy with
    | null => simp [isNull] at ny
    | uInt64 w => exact agree_word (toNat_lt _) (toNat_lt _) (compare_uInt64 v w)
  | date32 v =>
    cases hy with
    | null => simp [isNull] at ny
    | date32 w => exact agree_word (toNat_lt _) (toNat_lt _) (compare_int32 v w)
  | date64 v =>
    cases hy with
    | null => simp [isNull] at ny
    | date64 w => exact agree_word (toNat_lt _) (toNat_lt _) (compare_int64 v w)
  | time32 v p q =>
    cases hy with
    | null => simp [isNull] at ny
    | time32 w => exact agree_word (toNat_lt _) (toNat_lt _) (compare_uInt32 v w)
  | time64 v p z q y =>
    cases hy with
    | null => simp [isNull] at ny
    | time64 w => exact agree_word (toNat_lt _) (toNat_lt _) (compare_int64 v w)
  | char r ty u len unit =>
    cases hy with
    | null => simp [isNull] at ny
    | char s => exact ⟨_, _, _, rfl, rfl, rfl, decides_encodeString (asBytes r) (asBytes s)⟩
  | varchar r ty u len unit =>
    cases hy with
    | null => simp [isNull] at ny
    | varchar s => exact ⟨_, _, _, rfl, rfl, rfl, decides_encodeString (asBytes r) (asBytes s)⟩
  | decimal d p s =>
    cases hy with
    | null => simp [isNull] at ny
    | decimal e =>
      obtain ⟨u, hu, hdu⟩ := serializeDecimal_encodes d
      obtain ⟨v, hv, hev⟩ := serializeDecimal_encodes e
      exact ⟨u, v, _, hu, hv, rfl, (hdu.decides hev).of_eq (d.cmp_eq_compare_toRat e).symm⟩
  | tupleNil =>
    cases hy with
    | null => simp [isNull] at ny
    | tupleNil => exact ⟨[], [], .eq, rfl, rfl, rfl, decides_nil⟩
  | @tupleCons v vs t ts hv hvs ihv ihs =>
    cases hy with
    | null => simp [isNull] at ny
    | @tupleCons w ws t ts hw hws =>
      simp only [floatFree, floatFreeAll, Bool.and_eq_true] at ht
      have he := agree_encode hv.body_ok hw.body_ok (ihv hw ht.1)
      exact agree_encodeAll_cons he (ihs hws ht.2 rfl rfl)

theorem Fits.agree (hx : Fits x t) (hy : Fits y t) (ht : t.floatFree = true) :
    Agree (memcomparableEncode x) (memcomparableEncode y) (tupleElementPartialCmp x y) :=
  agree_encode hx.body_ok hy.body_ok (hx.agree_body hy ht)

theorem Fits.encode_cons (h : Fits x t) : ∃ c r, memcomparableEncode x = .ok (c :: r) := by
  obtain ⟨u, hu⟩ := h.body_ok
  obtain ⟨-, he⟩ | ⟨-, he⟩ := encode_cases hu
  · exact ⟨_, _, he⟩
  · exact ⟨_, _, he⟩

theorem cons_isPrefix_or {u : LogicalType} (h : t :: ts <+: u :: us ∨ u :: us <+: t :: ts) :
    t = u ∧ (ts <+: us ∨ us <+: ts) := by
  rw [cons_prefix_cons, cons_prefix_cons] at h
  rcases h with ⟨ht, h⟩ | ⟨ht, h⟩
  · exact ⟨ht, Or.inl h⟩
  · exact ⟨ht.symm, Or.inr h⟩

/-- Tuples typed along one list of types compare element by element, the shorter one first. -/
theorem Fits.compare_encodeAll (hx : Fits (.tuple xs) (.tuple ts))
    (hy : Fits (.tuple ys) (.tuple us)) (hp : ts <+: us ∨ us <+: ts) (ht : floatFreeAll ts = true) :
    ∃ a b o, memcomparableEncodeAll xs = .ok a ∧ memcomparableEncodeAll ys = .ok b ∧
      tuplePartialCmp xs ys false false = some o ∧ compare a b = o ∧
      (a <+: b → xs.length ≤ ys.length ∧ eqList xs (ys.take xs.length) = true) := by
  induction xs generalizing ys ts us with
  | nil =>
    cases hy with
    | tupleNil => exact ⟨[], [], .eq, rfl, rfl, rfl, rfl, fun _ => ⟨le_rfl, rfl⟩⟩
    | tupleCons hw hws =>
      obtain ⟨c, r, hc⟩ := hw.encode_cons
      obtain ⟨b, hb⟩ := hws.body_ok
      exact ⟨[], _, .lt, rfl, memcomparableEncodeAll_cons hc hb, rfl, rfl,
        fun _ => ⟨Nat.zero_le _, rfl⟩⟩
  | cons x xs ih =>
    cases hx with
    | tupleCons hv hvs =>
      cases hy with
      | tupleNil =>
        obtain ⟨c, r, hc⟩ := hv.encode_cons
        obtain ⟨a, ha⟩ := hvs.body_ok
        exact ⟨_, [], .gt, memcomparableEncodeAll_cons hc ha, rfl, rfl, rfl, fun h => by simp at h⟩
      | tupleCons hw hws =>
        obtain ⟨rfl, hp'⟩ := cons_isPrefix_or hp
        simp only [floatFreeAll, Bool.and_eq_true] at ht
        obtain ⟨u, v, p, hu, hv, hcmp, hd⟩ := hv.agree hw ht.1
        obtain ⟨a, b, q, ha, hb, hq, hab, hpre⟩ := ih hvs hws hp' ht.2
        refine ⟨u ++ a, v ++ b, p.then q, memcomparableEncodeAll_cons hu ha,
          memcomparableEncodeAll_cons hv hb, ?_, by rw [hd, hab], ?_⟩
        · have hc := hcmp
          unfold tupleElementPartialCmp at hc
          rw [tuplePartialCmp, hc]
          cases p <;> simp [hq]
        · rintro ⟨s, hs⟩
          rw [append_assoc] at hs
          obtain ⟨huv, hr⟩ := hd.delimits _ _ hs
          obtain ⟨hl, he⟩ := hpre ⟨s, hr⟩
          rw [hd.eq_iff.mp huv] at hcmp
          refine ⟨by simpa using hl, ?_⟩
          rw [length_cons, take_succ_cons, eqList, eq_of_tupleElementPartialCmp hcmp, he]
          rfl

/-- The key encoding of values of one type, and of tuples typed along one list of types, compares
as the values do, and only a tuple that begins another tuple is encoded by a prefix. -/
theorem memcomparableEncode_orderEmbedding :
    (∀ t x y, LogicalType.floatFree t = true → Fits x t → Fits y t →
      ∃ a b o, memcomparableEncode x = .ok a ∧ memcomparableEncode y = .ok b ∧
        tupleElementPartialCmp x y = some o ∧ compare a b = o ∧
        (a <+: b → a = b ∧ eq x y = true)) ∧
    (∀ ts us xs ys, ts <+: us ∨ us <+: ts → LogicalType.floatFreeAll ts = true →
      Fits (.tuple xs) (.tuple ts) → Fits (.tuple ys) (.tuple us) →
      ∃ a b o, memcomparableEncode (.tuple xs) = .ok a ∧ memcomparableEncode (.tuple ys) = .ok b ∧
        tuplePartialCmp xs ys false false = some o ∧ compare a b = o ∧
        (a <+: b → xs.length ≤ ys.length ∧ eqList xs (ys.take xs.length) = true)) := by
  constructor
  · intro t x y ht hx hy
    obtain ⟨a, b, o, ha, hb, ho, hd⟩ := hx.agree hy ht
    refine ⟨a, b, o, ha, hb, ho, hd.compare_eq, fun hp => ?_⟩
    have hab := hd.eq_of_isPrefix hp
    rw [hd.eq_iff.mp hab] at ho
    exact ⟨hab, eq_of_tupleElementPartialCmp ho⟩
  · intro ts us xs ys hp ht hx hy
    obtain ⟨a, b, o, ha, hb, ho, hc, hpre⟩ := hx.compare_encodeAll hy hp ht
    refine ⟨notNullTag :: a, notNullTag :: b, o, memcomparableEncode_of_body rfl ha,
      memcomparableEncode_of_body rfl hb, ho, ?_, fun h => hpre ?_⟩
    · rw [List.compare_cons_cons, Std.ReflOrd.compare_self, Ordering.eq_then, hc]
    · simpa using h

theorem memcomparableEncode_orderEmbedding_null_last :
    (∃ a b o, memcomparableEncode (.tuple [.int32 (-3), .null]) = .ok a ∧
      memcomparableEncode (.tuple [.int32 (-3), .boolean true]) = .ok b ∧
      tupleElementPartialCmp (.tuple [.int32 (-3), .null])
        (.tuple [.int32 (-3), .boolean true]) = some o ∧ compare a b = o ∧
      (a <+: b → a = b ∧ eq (.tuple [.int32 (-3), .null])
        (.tuple [.int32 (-3), .boolean true]) = true)) ∧
    (∃ a b o, memcomparableEncode (.tuple [.int32 (-3)]) = .ok a ∧
      memcomparableEncode (.tuple [.int32 (-3), .null]) = .ok b ∧
      tuplePartialCmp [.int32 (-3)] [.int32 (-3), .null] false false = some o ∧
      compare a b = o ∧ (a <+: b → [DataValue.int32 (-3)].length ≤ 2 ∧
        eqList [.int32 (-3)] (List.take 1 [.int32 (-3), .null]) = true)) :=
  ⟨memcomparableEncode_orderEmbedding.1 (.tuple [.integer, .boolean]) _ _ rfl
      (.tupleCons (.int32 _) (.tupleCons (.null _) .tupleNil))
      (.tupleCons (.int32 _) (.tupleCons (.boolean _) .tupleNil)),
    memcomparableEncode_orderEmbedding.2 [.integer] [.integer, .boolean] _ _ (Or.inl (by simp))
      rfl (.tupleCons (.int32 _) .tupleNil)
      (.tupleCons (.int32 _) (.tupleCons (.null _) .tupleNil))⟩

end KiteSQL.DataValue
