import KiteSQL.Types.KeyDecode
import KiteSQL.Types.Tuple

/-! When two values share their key encoding. -/
namespace KiteSQL.DataValue

open FloatBits List Endian LogicalType

mutual

/-- A NaN is not turned into a NaN of another bit pattern. -/
def keepsNan : DataValue → DataValue → Bool
  | .float32 a, .float32 b =>
    !(FloatBits.binary32.isNan a.toNat && FloatBits.binary32.isNan b.toNat) || a = b
  | .float64 a, .float64 b =>
    !(FloatBits.binary64.isNan a.toNat && FloatBits.binary64.isNan b.toNat) || a = b
  | .tuple vs, .tuple ws => keepsNanAll vs ws
  | _, _ => true

def keepsNanAll : List DataValue → List DataValue → Bool
  | v :: vs, w :: ws => keepsNan v w && keepsNanAll vs ws
  | _, _ => true

end

/-- A CHAR column keeps a text that does not end in a space. -/
def keepsText : DataValue → LogicalType → Prop
  | .utf8 value _ _, .char _ _ => trimEnd value = value
  | _, _ => True

variable {v w : DataValue} {vs ws : List DataValue} {t : LogicalType} {ts : List LogicalType}
  {s : TupleValueSerializableImpl} {a b : UInt32}

theorem serializeDecimal_congr {d e : Decimal} (h : d.cmp e = .eq) :
    serializeDecimal d = serializeDecimal e := by
  obtain ⟨a, b, o, ha, hb, ho, hd⟩ :=
    (Fits.decimal d none none).agree_body (.decimal e none none) rfl rfl rfl
  rw [partialCmp, h] at ho
  change serializeDecimal d = .ok a at ha
  change serializeDecimal e = .ok b at hb
  rw [ha, hb, hd.eq_iff.mpr (Option.some.inj ho).symm]

theorem float32Key_congr (h : binary32.orderedCmp a.toNat b.toNat = .eq)
    (hn : binary32.isNan a.toNat = true → binary32.isNan b.toNat = true → a = b)
    : (float32Key a).toNat = (float32Key b).toNat := by
  rw [float32Key_toNat, float32Key_toNat]
  exact encodeKey_congr a.toNat_lt b.toNat_lt h fun ha hb => by rw [hn ha hb]

theorem float64Key_congr {a b : UInt64} (h : binary64.orderedCmp a.toNat b.toNat = .eq)
    (hn : binary64.isNan a.toNat = true → binary64.isNan b.toNat = true → a = b) :
    (float64Key a).toNat = (float64Key b).toNat := by
  rw [float64Key_toNat, float64Key_toNat]
  exact encodeKey_congr a.toNat_lt b.toNat_lt h fun ha hb => by rw [hn ha hb]

theorem memcomparableEncode_of_body_eq (hn : v.isNull = w.isNull)
    (hb : memcomparableBody v = memcomparableBody w) :
    memcomparableEncode v = memcomparableEncode w := by
  rw [memcomparableEncode, memcomparableEncode, memcomparableEncodeWithNullOrder,
    memcomparableEncodeWithNullOrder, tagged, tagged, hn, hb]

theorem memcomparableEncode_tuple_inj :
    memcomparableEncode (.tuple vs) = memcomparableEncode (.tuple ws) ↔
      memcomparableEncodeAll vs = memcomparableEncodeAll ws := by
  refine ⟨fun h => ?_, fun h => memcomparableEncode_of_body_eq rfl h⟩
  change (memcomparableEncodeAll vs >>= fun b => pure (notNullTag :: b)) =
    (memcomparableEncodeAll ws >>= fun b => pure (notNullTag :: b)) at h
  cases hv : memcomparableEncodeAll vs <;> cases hw : memcomparableEncodeAll ws <;>
    simp_all

theorem memcomparableEncodeAll_congr (hv : memcomparableEncode v = memcomparableEncode w)
    (hvs : memcomparableEncodeAll vs = memcomparableEncodeAll ws) :
    memcomparableEncodeAll (v :: vs) = memcomparableEncodeAll (w :: ws) := by
  change (memcomparableEncode v >>= fun b => _) = (memcomparableEncode w >>= fun b => _)
  rw [hv, hvs]

theorem memcomparableEncodeAll_of_eqList
    (ih : ∀ v ∈ vs, ∀ w, eq v w = true → keepsNan v w = true →
      memcomparableEncode v = memcomparableEncode w) (h : eqList vs ws = true)
    (hn : keepsNanAll vs ws = true) : memcomparableEncodeAll vs = memcomparableEncodeAll ws := by
  induction vs generalizing ws with
  | nil =>
    cases ws with
    | nil => rfl
    | cons w ws => simp [eqList] at h
  | cons v vs ihs =>
    cases ws with
    | nil => simp [eqList] at h
    | cons w ws =>
      simp only [eqList, Bool.and_eq_true] at h
      simp only [keepsNanAll, Bool.and_eq_true] at hn
      exact memcomparableEncodeAll_congr (ih v (by simp) w h.1 hn.1)
        (ihs (fun x hx => ih x (by simp [hx])) h.2 hn.2)

/-- Equal values share their key, unless they are different NaNs. -/
theorem memcomparableEncode_congr (h : eq v w = true) (hn : keepsNan v w = true) :
    memcomparableEncode v = memcomparableEncode w := by
  induction v generalizing w with
  | tuple vs ih =>
    cases w with
    | tuple ws =>
      exact memcomparableEncode_of_body_eq rfl
        (memcomparableEncodeAll_of_eqList (fun x hx y => ih x hx) h hn)
    | _ => simp [eq] at h
  | float32 a =>
    cases w with
    | float32 b =>
      refine memcomparableEncode_of_body_eq rfl ?_
      rw [memcomparableBody, memcomparableBody, float32Key_congr]
      · simpa [eq] using h
      · intro ha hb
        simpa [keepsNan, ha, hb] using hn
    | _ => simp [eq] at h
  | float64 a =>
    cases w with
    | float64 b =>
      refine memcomparableEncode_of_body_eq rfl ?_
      rw [memcomparableBody, memcomparableBody, float64Key_congr]
      · simpa [eq] using h
      · intro ha hb
        simpa [keepsNan, ha, hb] using hn
    | _ => simp [eq] at h
  | decimal d =>
    cases w with
    | decimal e =>
      exact memcomparableEncode_of_body_eq rfl (serializeDecimal_congr (by simpa [eq] using h))
    | _ => simp [eq] at h
  | _ => cases w <;> simp_all [eq] <;> rfl

theorem memcomparableEncodeAll_congr_of_eqList (h : eqList vs ws = true)
    (hn : keepsNanAll vs ws = true) : memcomparableEncodeAll vs = memcomparableEncodeAll ws :=
  memcomparableEncodeAll_of_eqList (fun _ _ _ => memcomparableEncode_congr) h hn

theorem keepsNan_of_exact (h : v.isExact = true) : keepsNan v w = true := by
  induction v generalizing w with
  | tuple vs ih =>
    cases w with
    | tuple ws =>
      rw [isExact] at h
      rw [keepsNan]
      induction vs generalizing ws with
      | nil => rfl
      | cons v vs ihs =>
        cases ws with
        | nil => rfl
        | cons w ws =>
          simp only [allExact, Bool.and_eq_true] at h
          rw [keepsNanAll, ih v (by simp) h.1, ihs (fun x hx => ih x (by simp [hx])) h.2]
          rfl
    | _ => rfl
  | _ => cases w <;> simp_all [isExact, keepsNan]

theorem memcomparableEncode_utf8_inj {a b : String} {ty ty' : Utf8Type}
    {unit unit' : CharLengthUnits} :
    memcomparableEncode (.utf8 a ty unit) = memcomparableEncode (.utf8 b ty' unit') ↔ a = b := by
  refine ⟨fun h => ?_, fun h => by rw [h]; rfl⟩
  have he : encodeString (asBytes a) = encodeString (asBytes b) := by
    simpa using Except.ok.inj h
  have ha := reads_decodeString (asBytes a) []
  rw [he, reads_decodeString] at ha
  exact asBytes_inj.mp (congrArg Prod.fst (Except.ok.inj ha)).symm

/-- A column keeps the key of a value unless it cuts spaces off. -/
theorem memcomparableEncode_kept_iff (hs : t.serializable = .ok s) :
    memcomparableEncode (v.kept t) = memcomparableEncode v ↔ v.keepsText t := by
  cases t with
  | tuple => cases hs
  | char len unit =>
    cases v with
    | utf8 value ty unit' => exact memcomparableEncode_utf8_inj
    | _ => exact ⟨fun _ => trivial, fun _ => rfl⟩
  | _ => cases v <;> exact ⟨fun _ => trivial, fun _ => rfl⟩

theorem Fits.kept (h : Fits v t) (hs : t.serializable = .ok s) : Fits (v.kept t) t := by
  cases h with
  | tupleNil | tupleCons => cases hs
  | null => cases t <;> exact .null _
  | _ => constructor

/-- The encoding of the first of several values can be told from that of the others. -/
theorem memcomparableEncodeAll_cons_inj (hv : Fits v t) (hw : Fits w t)
    (hvs : Fits (.tuple vs) (.tuple ts)) (hws : Fits (.tuple ws) (.tuple ts)) :
    memcomparableEncodeAll (v :: vs) = memcomparableEncodeAll (w :: ws) ↔
      memcomparableEncode v = memcomparableEncode w ∧
        memcomparableEncodeAll vs = memcomparableEncodeAll ws := by
  refine ⟨fun he => ?_, fun ⟨hv, hvs⟩ => memcomparableEncodeAll_congr hv hvs⟩
  obtain ⟨a, x, ha, hr, -⟩ := hv.reads
  obtain ⟨a', x', ha', hr', -⟩ := hw.reads
  obtain ⟨b, hb⟩ := hvs.body_ok
  obtain ⟨b', hb'⟩ := hws.body_ok
  rw [memcomparableEncodeAll_cons ha hb, memcomparableEncodeAll_cons ha' hb'] at he
  obtain ⟨rfl, rfl⟩ := hr.delimits hr' _ _ (Except.ok.inj he)
  exact ⟨ha.trans ha'.symm, hb.trans hb'.symm⟩

section

variable (h : Forall₂ (fun v t => Fits v t ∧ ∃ s, serializable t = .ok s) vs ts)
include h

theorem fits_keptAll : Fits (.tuple (Tuple.keptAll vs ts)) (.tuple ts) := by
  induction h with
  | nil => exact .tupleNil
  | cons hv _ ih =>
    obtain ⟨hf, s, hs⟩ := hv
    exact .tupleCons (hf.kept hs) ih

/-- The encoded values of some columns change when one of them cuts spaces off, and only then. -/
theorem memcomparableEncodeAll_kept_iff :
    memcomparableEncodeAll (Tuple.keptAll vs ts) = memcomparableEncodeAll vs ↔
      Forall₂ keepsText vs ts := by
  induction h with
  | nil => exact ⟨fun _ => .nil, fun _ => rfl⟩
  | @cons v t vs ts hv hvs ih =>
    obtain ⟨hf, s, hs⟩ := hv
    rw [Tuple.keptAll, forall₂_cons, ← ih, ← memcomparableEncode_kept_iff hs]
    have hfs : Fits (.tuple vs) (.tuple ts) := fits_tuple_iff.mpr (hvs.imp fun _ _ h => h.1)
    exact memcomparableEncodeAll_cons_inj (hf.kept hs) hf (fits_keptAll hvs) hfs

end

theorem float32Key_injective_of_nan (ha : binary32.isNan a.toNat = true)
    (hb : binary32.isNan b.toNat = true) (h : float32Key a = float32Key b) : a = b := by
  rw [float32Key, float32Key, if_neg (by simp [geZero, ha]), if_neg (by simp [geZero, hb])] at h
  exact UInt32.not_inj.mp h

theorem float64Key_injective_of_nan {a b : UInt64} (ha : binary64.isNan a.toNat = true)
    (hb : binary64.isNan b.toNat = true) (h : float64Key a = float64Key b) : a = b := by
  rw [float64Key, float64Key, if_neg (by simp [geZero, ha]), if_neg (by simp [geZero, hb])] at h
  exact UInt64.not_inj.mp h

theorem not_and_or_decide {a b : Bool} {p : Prop} [Decidable p]
    (h : a = true → b = true → p) : (!(a && b) || decide p) = true := by
  cases a <;> cases b <;> simp_all

/-- Equal values of a column type share their key when, and only when, no NaN changes its bits. -/
theorem memcomparableEncode_eq_iff (hs : t.serializable = .ok s) (hv : Fits v t) (h : eq v w = true)
    : memcomparableEncode v = memcomparableEncode w ↔ keepsNan v w = true := by
  refine ⟨fun he => ?_, memcomparableEncode_congr h⟩
  cases hv with
  | tupleNil | tupleCons => cases hs
  | float32 a =>
    cases w with
    | float32 b =>
      refine not_and_or_decide fun ha hb => float32Key_injective_of_nan ha hb ?_
      have hkey := congrArg fromBeBytes (cons.inj (Except.ok.inj he)).2
      rw [fromBeBytes_toBeBytes (UInt32.toNat_lt _),
        fromBeBytes_toBeBytes (UInt32.toNat_lt _)] at hkey
      exact UInt32.toNat_inj.mp hkey
    | _ => simp [eq] at h
  | float64 a =>
    cases w with
    | float64 b =>
      refine not_and_or_decide fun ha hb => float64Key_injective_of_nan ha hb ?_
      have hkey := congrArg fromBeBytes (cons.inj (Except.ok.inj he)).2
      rw [fromBeBytes_toBeBytes (UInt64.toNat_lt _),
        fromBeBytes_toBeBytes (UInt64.toNat_lt _)] at hkey
      exact UInt64.toNat_inj.mp hkey
    | _ => simp [eq] at h
  | _ => cases w <;> simp [keepsNan]

theorem memcomparableEncodeAll_eq_iff
    (hv : Forall₂ (fun v t => Fits v t ∧ ∃ s, serializable t = .ok s) vs ts)
    (hw : Forall₂ Fits ws ts) (h : eqList vs ws = true) :
    memcomparableEncodeAll vs = memcomparableEncodeAll ws ↔ keepsNanAll vs ws = true := by
  induction hv generalizing ws with
  | nil =>
    cases hw
    exact ⟨fun _ => rfl, fun _ => rfl⟩
  | @cons v t vs ts hvt hvs ih =>
    obtain ⟨hf, s, hs⟩ := hvt
    cases hw with
    | @cons w _ ws _ hwt hws =>
      simp only [eqList, Bool.and_eq_true] at h
      rw [keepsNanAll, Bool.and_eq_true, ← memcomparableEncode_eq_iff hs hf h.1, ← ih hws h.2]
      exact memcomparableEncodeAll_cons_inj hf hwt
        (fits_tuple_iff.mpr (hvs.imp fun _ _ h => h.1)) (fits_tuple_iff.mpr hws)

theorem keepsText_of_not_char (hlen : vs.length = ts.length) (h : ∀ len unit, .char len unit ∉ ts) :
    Forall₂ keepsText vs ts := by
  induction vs generalizing ts with
  | nil =>
    cases ts with
    | nil => exact .nil
    | cons => cases hlen
  | cons v vs ih =>
    cases ts with
    | nil => cases hlen
    | cons t ts =>
      refine .cons ?_ (ih (by simpa using hlen) fun len unit hmem => h len unit (by simp [hmem]))
      cases t with
      | char len unit => exact absurd (by simp) (h len unit)
      | _ => cases v <;> trivial

theorem keepsText_congr (hv : Fits v t) (hw : Fits w t)
    (h : memcomparableEncode v = memcomparableEncode w) (hk : v.keepsText t) : w.keepsText t := by
  cases t with
  | char len unit =>
    cases hw with
    | null => trivial
    | char value ty u =>
      cases hv with
      | null => exact absurd (cons.inj (Except.ok.inj h)).1 (by decide)
      | char value' ty' u' =>
        obtain rfl := memcomparableEncode_utf8_inj.mp h
        exact hk
  | _ => cases w <;> trivial

/-- Whether columns cut spaces off can be told from the encoded values. -/
theorem forall₂_keepsText_congr (hv : Forall₂ Fits vs ts) (hw : Forall₂ Fits ws ts)
    (h : memcomparableEncodeAll vs = memcomparableEncodeAll ws) (hk : Forall₂ keepsText vs ts)
    : Forall₂ keepsText ws ts := by
  induction hv generalizing ws with
  | nil =>
    cases hw
    exact .nil
  | cons hvt hvs ih =>
    cases hw with
    | cons hwt hws =>
      obtain ⟨hhead, htail⟩ := (memcomparableEncodeAll_cons_inj hvt hwt
        (fits_tuple_iff.mpr hvs) (fits_tuple_iff.mpr hws)).mp h
      cases hk with
      | cons hkt hks => exact .cons (keepsText_congr hvt hwt hhead hkt) (ih hws htail hks)

end KiteSQL.DataValue
