import KiteSQL.Types.KeyEq

/-! The keys of values that are no NaN order them. -/
namespace KiteSQL.DataValue

open LexCode Endian

variable {x y : DataValue} {t : LogicalType}

/-- A single value that is no NaN. -/
def notNan : DataValue → Bool
  | .float32 u => !FloatBits.binary32.isNan u.toNat
  | .float64 u => !FloatBits.binary64.isNan u.toNat
  | .tuple _ => false
  | _ => true

/-- The codes of two values of a column type that are no NaN compare as the values do. -/
theorem Fits.agree_body_of_notNan {s : TupleValueSerializableImpl} (hs : t.serializable = .ok s)
    (hx : Fits x t) (hy : Fits y t) (nx : x.notNan = true) (ny : y.notNan = true)
    (hxn : x.isNull = false) (hyn : y.isNull = false) :
    Agree (memcomparableBody x) (memcomparableBody y) (partialCmp x y) := by
  cases ht : t.floatFree with
  | true => exact hx.agree_body hy ht hxn hyn
  | false =>
    cases t with
    | float =>
      cases hx with
      | null => cases hxn
      | float32 u =>
        cases hy with
        | null => cases hyn
        | float32 v =>
          refine agree_word (UInt32.toNat_lt _) (UInt32.toNat_lt _) ?_
          rw [float32Key_toNat, float32Key_toNat]
          exact (FloatBits.compare_encodeKey (F := .binary32) u.toNat_lt v.toNat_lt
            (by simpa [notNan] using nx) (by simpa [notNan] using ny)).symm
    | double =>
      cases hx with
      | null => cases hxn
      | float64 u =>
        cases hy with
        | null => cases hyn
        | float64 v =>
          refine agree_word (UInt64.toNat_lt _) (UInt64.toNat_lt _) ?_
          rw [float64Key_toNat, float64Key_toNat]
          exact (FloatBits.compare_encodeKey (F := .binary64) u.toNat_lt v.toNat_lt
            (by simpa [notNan] using nx) (by simpa [notNan] using ny)).symm
    | tuple ts => cases hs
    | _ => cases ht

end KiteSQL.DataValue
