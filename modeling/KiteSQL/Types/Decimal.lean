import KiteSQL.Lib.LexCode

/-! The 96-bit decimals of the storage layer: a sign, a mantissa and a power of ten. -/
namespace KiteSQL

structure Decimal where
  negative : Bool
  magnitude : Nat
  scale : Nat
  magnitude_lt : magnitude < 2 ^ 96
  scale_le : scale ≤ 28
deriving DecidableEq

namespace Decimal

/-- The signed mantissa. -/
def mantissa (d : Decimal) : Int := if d.negative then -d.magnitude else d.magnitude

def isZero (d : Decimal) : Bool := d.magnitude = 0

def isSignPositive (d : Decimal) : Bool := !d.negative

def zero : Decimal := ⟨false, 0, 0, by decide, by decide⟩

/-- The number denoted. -/
def toRat (d : Decimal) : ℚ := d.mantissa / 10 ^ d.scale

/-- Numbers of different scales are compared at the product of their scales. -/
def cmp (a b : Decimal) : Ordering :=
  compare (a.mantissa * 10 ^ b.scale) (b.mantissa * 10 ^ a.scale)

/-- The checked constructor; the unchecked one of the crate panics where this gives nothing. -/
def tryFromI128WithScale (num : Int) (scale : Nat) : Option Decimal :=
  if h : num.natAbs < 2 ^ 96 ∧ scale ≤ 28 then
    some ⟨decide (num < 0), num.natAbs, scale, h.1, h.2⟩
  else none

theorem cmp_eq_compare_toRat (a b : Decimal) : a.cmp b = compare a.toRat b.toRat := by
  have ha : (0 : ℚ) < 10 ^ a.scale := by positivity
  have hb : (0 : ℚ) < 10 ^ b.scale := by positivity
  have hlt : a.toRat < b.toRat ↔
      a.mantissa * 10 ^ b.scale < b.mantissa * 10 ^ a.scale := by
    rw [toRat, toRat, div_lt_div_iff₀ ha hb]
    exact_mod_cast Iff.rfl
  have heq : a.toRat = b.toRat ↔
      a.mantissa * 10 ^ b.scale = b.mantissa * 10 ^ a.scale := by
    rw [toRat, toRat, div_eq_div_iff ha.ne' hb.ne']
    exact_mod_cast Iff.rfl
  exact LexCode.compare_eq_compare hlt.symm heq.symm

theorem cmp_eq_iff (a b : Decimal) : a.cmp b = .eq ↔ a.toRat = b.toRat := by
  rw [cmp_eq_compare_toRat, compare_eq_iff_eq]

theorem tryFromI128WithScale_of_lt {num : Int} {scale : Nat} (h : num.natAbs < 2 ^ 96)
    (hs : scale ≤ 28) :
    ∃ d, tryFromI128WithScale num scale = some d ∧ d.toRat = num / 10 ^ scale := by
  refine ⟨⟨decide (num < 0), num.natAbs, scale, h, hs⟩, dif_pos ⟨h, hs⟩, ?_⟩
  have hm : (if decide (num < 0) then -(num.natAbs : Int) else num.natAbs) = num := by
    split
    · next hn => rw [decide_eq_true_eq] at hn; omega
    · next hn => rw [decide_eq_true_eq] at hn; omega
  simp only [toRat, mantissa]
  rw [hm]

end Decimal

end KiteSQL
