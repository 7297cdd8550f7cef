import KiteSQL.Types.KeyOrder

/-! Decoding a key gives back the encoded value and leaves the bytes that follow it. -/
namespace KiteSQL.DataValue

open LexCode Endian ByteReader FloatBits List

variable {v w x y : DataValue} {vs ws xs ys : List DataValue} {t : LogicalType}
  {ts : List LogicalType}

theorem float32Key_toNat (u : UInt32) : (float32Key u).toNat = binary32.encodeKey u.toNat := by
  refine Eq.trans ?_ (toNat_encode (F := .binary32) (k := 31) rfl u.toBitVec)
  unfold float32Key
  by_cases h : binary32.geZero u.toNat
  · rw [if_pos h, if_pos (show binary32.geZero u.toBitVec.toNat from h)]
    rfl
  · rw [if_neg h, if_neg (show ¬ binary32.geZero u.toBitVec.toNat from h)]
    rfl

theorem float32OfKey_toNat (u : UInt32) : (float32OfKey u).toNat = binary32.decodeKey u.toNat := by
  refine Eq.trans ?_ (toNat_decode (F := .binary32) (k := 31) rfl u.toBitVec)
  have hc : u &&& 0x80000000 ≠ 0 ↔ u.toBitVec &&& BitVec.intMin 32 ≠ 0 :=
    UInt32.toBitVec_inj.symm.not
  unfold float32OfKey
  by_cases h : u &&& 0x80000000 ≠ 0
  · rw [if_pos h, if_pos (hc.mp h)]
    rfl
  · rw [if_neg h, if_neg (fun h' => h (hc.mpr h'))]
    rfl

theorem float64Key_toNat (u : UInt64) : (float64Key u).toNat = binary64.encodeKey u.toNat := by
  refine Eq.trans ?_ (toNat_encode (F := .binary64) (k := 63) rfl u.toBitVec)
  unfold float64Key
  by_cases h : binary64.geZero u.toNat
  · rw [if_pos h, if_pos (show binary64.geZero u.toBitVec.toNat from h)]
    rfl
  · rw [if_neg h, if_neg (show ¬ binary64.geZero u.toBitVec.toNat from h)]
    rfl

theorem float64OfKey_toNat (u : UInt64) : (float64OfKey u).toNat = binary64.decodeKey u.toNat := by
  refine Eq.trans ?_ (toNat_decode (F := .binary64) (k := 63) rfl u.toBitVec)
  have hc : u &&& 0x8000000000000000 ≠ 0 ↔ u.toBitVec &&& BitVec.intMin 64 ≠ 0 :=
    UInt64.toBitVec_inj.symm.not
  unfold float64OfKey
  by_cases h : u &&& 0x8000000000000000 ≠ 0
  · rw [if_pos h, if_pos (hc.mp h)]
    rfl
  · rw [if_neg h, if_neg (fun h' => h (hc.mpr h'))]
    rfl

theorem reads_untag_null (body : Reader DataValue) : Reads (untag body) [nullTag] .null := by
  intro s
  rfl

theorem reads_untag {body : Reader DataValue} {a : Bytes} (h : Reads body a x) :
    Reads (untag body) (notNullTag :: a) x :=
  (reads_readByte unexpectedEof notNullTag).bind h

/-- What reading the encoding of `v` at type `t` returns. -/
structure ReadBack (v w : DataValue) (t : LogicalType) : Prop where
  fits : Fits w t
  eq_iff : eq w v = !v.hasPositiveNan
  exact : v.isExact = true → w = v.retype t

theorem reads_word {n k : Nat} {g : Nat → DataValue} (hk : k < 256 ^ n) (hx : g k = x) :
    Reads (decodeU n >>= fun k => pure (g k)) (toBeBytes n k) x := by
  subst hx
  rw [← append_nil (toBeBytes n k)]
  exact (reads_readBe unexpectedEof hk).bind (reads_pure (g k))

theorem reads_decodeUtf8 (s : String) (ty : Utf8Type) (unit : CharLengthUnits) :
    Reads (decodeUtf8 ty unit) (encodeString (asBytes s)) (.utf8 s ty unit) := by
  rw [← append_nil (encodeString (asBytes s))]
  refine (reads_decodeString (asBytes s)).bind ?_
  refine Reads.bind (a := []) (reads_lift (fromUtf8_asBytes s)) ?_
  exact reads_pure _

theorem readBack_null (t : LogicalType) : ReadBack .null .null t := by
  refine ⟨.null t, by simp [eq, hasPositiveNan], fun _ => ?_⟩
  cases t <;> rfl

/-- The tag carries a reading of the body over to the whole value. -/
theorem reads_of_body
    (h : v.isNull = false → ∃ a w, memcomparableBody v = .ok a ∧
      Reads (memcomparableDecodeBody t) a w ∧ ReadBack v w t) :
    ∃ a w, memcomparableEncode v = .ok a ∧ Reads (memcomparableDecode t) a w ∧ ReadBack v w t := by
  cases hn : v.isNull with
  | true =>
    rw [isNull_iff] at hn
    subst hn
    exact ⟨_, _, memcomparableEncode_null, reads_untag_null _, readBack_null t⟩
  | false =>
    obtain ⟨a, w, ha, hr, hw⟩ := h hn
    exact ⟨_, w, memcomparableEncode_of_body hn ha, reads_untag hr, hw⟩

theorem ReadBack.tuple_cons {t : LogicalType} (h : ReadBack v w t)
    (hs : ReadBack (.tuple vs) (.tuple ws) (.tuple ts)) :
    ReadBack (.tuple (v :: vs)) (.tuple (w :: ws)) (.tuple (t :: ts)) := by
  refine ⟨.tupleCons h.fits hs.fits, ?_, fun he => ?_⟩
  · have heq := hs.eq_iff
    simp only [eq, hasPositiveNan] at heq ⊢
    simp only [eqList, anyPositiveNan, h.eq_iff, heq, Bool.not_or]
  · have hex := hs.exact
    simp only [isExact, allExact, Bool.and_eq_true] at he hex
    have hvs := hex he.2
    simp only [retype, tuple.injEq] at hvs ⊢
    rw [retypeAll, h.exact he.1, hvs]

/-- A value whose body is one word is read back with the type of the key. -/
theorem reads_body_of_word {n k : Nat} {g : Nat → DataValue} (hk : k < 256 ^ n)
    (hv : memcomparableBody v = .ok (toBeBytes n k))
    (ht : memcomparableDecodeBody t = decodeU n >>= fun k => pure (g k)) (hg : g k = v.retype t)
    (hfits : Fits (v.retype t) t) (heq : eq (v.retype t) v = !v.hasPositiveNan) :
    ∃ a w, memcomparableBody v = .ok a ∧ Reads (memcomparableDecodeBody t) a w ∧
      ReadBack v w t :=
  ⟨_, _, hv, ht ▸ reads_word hk hg, hfits, heq, fun _ => rfl⟩

theorem Fits.reads_body (h : Fits v t) (hn : v.isNull = false) :
    ∃ a w, memcomparableBody v = .ok a ∧ Reads (memcomparableDecodeBody t) a w ∧
      ReadBack v w t := by
  induction h with
  | null t => simp [isNull] at hn
  | boolean v =>
    refine ⟨_, .boolean v, rfl, ?_, .boolean v, by simp [eq, hasPositiveNan], fun _ => rfl⟩
    intro s
    cases v <;> rfl
  | int8 | uInt8 =>
    exact reads_body_of_word (UInt8.toNat_lt _) rfl rfl (by simp only [retype, UInt8.ofNat_toNat,
        UInt8.xor_assoc, UInt8.xor_self, UInt8.xor_zero, Int8.toInt8_toUInt8])
      (by simp only [retype]; constructor) (by simp [retype, eq, hasPositiveNan])
  | int16 | uInt16 =>
    exact reads_body_of_word (UInt16.toNat_lt _) rfl rfl (by simp only [retype, UInt16.ofNat_toNat,
        UInt16.xor_assoc, UInt16.xor_self, UInt16.xor_zero, Int16.toInt16_toUInt16])
      (by simp only [retype]; constructor) (by simp [retype, eq, hasPositiveNan])
  | int32 | uInt32 | date32 | time32 =>
    exact reads_body_of_word (UInt32.toNat_lt _) rfl rfl (by simp only [retype, UInt32.ofNat_toNat,
        UInt32.xor_assoc, UInt32.xor_self, UInt32.xor_zero, Int32.toInt32_toUInt32])
      (by simp only [retype]; constructor) (by simp [retype, eq, hasPositiveNan])
  | int64 | uInt64 | date64 | time64 =>
    exact reads_body_of_word (UInt64.toNat_lt _) rfl rfl (by simp only [retype, UInt64.ofNat_toNat,
        UInt64.xor_assoc, UInt64.xor_self, UInt64.xor_zero, Int64.toInt64_toUInt64])
      (by simp only [retype]; constructor) (by simp [retype, eq, hasPositiveNan])
  | char r ty u len unit =>
    exact ⟨_, _, rfl, reads_decodeUtf8 r _ _, .char _ _ _ _ _, by simp [eq, hasPositiveNan],
      fun _ => rfl⟩
  | varchar r ty u len unit =>
    exact ⟨_, _, rfl, reads_decodeUtf8 r _ _, .varchar _ _ _ _ _, by simp [eq, hasPositiveNan],
      fun _ => rfl⟩
  | float32 u =>
    refine ⟨_, .float32 (float32OfKey (float32Key u)), rfl, ?_, .float32 _, ?_, fun h => ?_⟩
    · exact reads_word (UInt32.toNat_lt _) (by simp)
    · have h := orderedCmp_decodeKey (F := .binary32) (u := u.toNat) (by decide)
        (UInt32.toNat_lt u)
      rw [← float32Key_toNat, ← float32OfKey_toNat] at h
      simp [eq, hasPositiveNan, h]
    · simp [isExact] at h
  | float64 u =>
    refine ⟨_, .float64 (float64OfKey (float64Key u)), rfl, ?_, .float64 _, ?_, fun h => ?_⟩
    · exact reads_word (UInt64.toNat_lt _) (by simp)
    · have h := orderedCmp_decodeKey (F := .binary64) (u := u.toNat) (by decide)
        (UInt64.toNat_lt u)
      rw [← float64Key_toNat, ← float64OfKey_toNat] at h
      simp [eq, hasPositiveNan, h]
    · simp [isExact] at h
  | decimal d p s =>
    obtain ⟨a, ha, henc⟩ := serializeDecimal_encodes d
    obtain ⟨e, hr, hv⟩ := henc.reads
    refine ⟨a, .decimal e, ha, ?_, .decimal e p s, ?_, fun h => by simp [isExact] at h⟩
    · rw [← append_nil a]
      exact hr.bind (reads_pure _)
    · simp [eq, hasPositiveNan, Decimal.cmp_eq_iff, hv]
  | tupleNil =>
    exact ⟨[], .tuple [], rfl, fun s => rfl, .tupleNil, rfl, fun _ => rfl⟩
  | @tupleCons v vs t ts hv hvs ihv ihs =>
    obtain ⟨a, w, ha, hr, hw⟩ := reads_of_body ihv
    obtain ⟨b, ws, hb, hrs, hws⟩ := ihs rfl
    obtain ⟨us, rfl, hus⟩ := Reads.of_map (fun _ _ h => by simpa using h) hrs
    have hrest : Reads (memcomparableDecodeAll ts >>= fun vs => pure (w :: vs)) b (w :: us) := by
      rw [← append_nil b]
      exact hus.bind (reads_pure _)
    have hall : Reads (memcomparableDecodeAll (t :: ts)) (a ++ b) (w :: us) := hr.bind hrest
    refine ⟨a ++ b, .tuple (w :: us), memcomparableEncodeAll_cons ha hb, ?_, hw.tuple_cons hws⟩
    rw [← append_nil (a ++ b)]
    exact hall.bind (reads_pure _)

/-- Decoding the encoding of a value finds its end and returns an equal value, unless the value
holds a NaN whose sign bit is clear. -/
theorem Fits.reads (h : Fits v t) :
    ∃ a w, memcomparableEncode v = .ok a ∧ Reads (memcomparableDecode t) a w ∧ ReadBack v w t :=
  reads_of_body h.reads_body

/-- The keys of two values of one type decide a comparison, whatever follows them. -/
theorem Fits.decides {a b : Bytes} (hv : Fits v t) (hw : Fits w t)
    (ha : memcomparableEncode v = .ok a) (hb : memcomparableEncode w = .ok b) :
    Decides a b (compare a b) := by
  obtain ⟨a', x, ha', hr, -⟩ := hv.reads
  obtain ⟨b', y, hb', hr', -⟩ := hw.reads
  obtain rfl := Except.ok.inj (ha.symm.trans ha')
  obtain rfl := Except.ok.inj (hb.symm.trans hb')
  exact (hr.delimits hr').decides

end KiteSQL.DataValue
