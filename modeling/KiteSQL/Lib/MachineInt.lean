import Mathlib.Tactic

/-! Machine integers as the integers in a range, with arithmetic that reports overflow. -/

/-- A type of integers between two bounds. -/
class MachineInt (α : Type) where
  toInt : α → Int
  ofInt : Int → α
  minValue : Int
  maxValue : Int
  minValue_le : minValue ≤ 0
  le_maxValue : 0 ≤ maxValue
  toInt_ofInt : ∀ n, minValue ≤ n → n ≤ maxValue → toInt (ofInt n) = n
  le_toInt : ∀ a, minValue ≤ toInt a
  toInt_le : ∀ a, toInt a ≤ maxValue
  toInt_inj : ∀ a b, toInt a = toInt b → a = b

namespace MachineInt

variable {α : Type} [MachineInt α]

/-- The integer as a value of the type, if it is one. -/
def checked (n : Int) : Option α :=
  if minValue α ≤ n ∧ n ≤ maxValue α then some (ofInt n) else none

def checkedAdd (a b : α) : Option α := checked (toInt a + toInt b)

def checkedSub (a b : α) : Option α := checked (toInt a - toInt b)

def checkedMul (a b : α) : Option α := checked (toInt a * toInt b)

/-- The remainder with the sign of the dividend. There is none for a divisor of zero, nor where
the quotient does not fit. -/
def checkedRem (a b : α) : Option α :=
  if toInt b = 0 ∨ toInt a = minValue α ∧ toInt b = -1 then none
  else some (ofInt (Int.tmod (toInt a) (toInt b)))

def checkedNeg (a : α) : Option α := checked (-toInt a)

variable {a b c : α} {n : Int}

theorem checked_of_le (h : minValue α ≤ n) (h' : n ≤ maxValue α) :
    ∃ c : α, checked n = some c ∧ toInt c = n :=
  ⟨ofInt n, if_pos ⟨h, h'⟩, toInt_ofInt n h h'⟩

theorem checked_eq_none (h : ¬ ∃ c : α, toInt c = n) : checked (α := α) n = none := by
  refine if_neg fun hn => h ?_
  exact ⟨ofInt n, toInt_ofInt n hn.1 hn.2⟩

/-- The remainder by a divisor other than zero fits. -/
theorem checkedRem_of_ne (hb : toInt b ≠ 0) (h : ¬ (toInt a = minValue α ∧ toInt b = -1)) :
    ∃ c : α, checkedRem a b = some c ∧ toInt c = Int.tmod (toInt a) (toInt b) := by
  have hlow := le_toInt a
  have hhigh := toInt_le a
  have hmin := minValue_le (α := α)
  have hmax := le_maxValue (α := α)
  have habs : (Int.tmod (toInt a) (toInt b)).natAbs ≤ (toInt a).natAbs := by
    rw [Int.natAbs_tmod]
    exact Nat.mod_le _ _
  refine ⟨_, if_neg (not_or.mpr ⟨hb, h⟩), toInt_ofInt _ ?_ ?_⟩
  · rcases Int.le_total 0 (toInt a) with h0 | h0
    · have := Int.tmod_nonneg (toInt b) h0
      omega
    · omega
  · rcases Int.le_total 0 (toInt a) with h0 | h0
    · omega
    · have := Int.tmod_nonneg (toInt b) (Int.neg_nonneg.mpr h0)
      rw [Int.neg_tmod] at this
      omega

end MachineInt

instance : MachineInt Int8 where
  toInt := Int8.toInt
  ofInt := Int8.ofInt
  minValue := -2 ^ 7
  maxValue := 2 ^ 7 - 1
  minValue_le := by decide
  le_maxValue := by decide
  toInt_ofInt _ h h' := Int8.toInt_ofInt_of_le h (Int.lt_of_le_sub_one h')
  le_toInt := Int8.le_toInt
  toInt_le a := Int.le_sub_one_of_lt a.toInt_lt
  toInt_inj _ _ := Int8.toInt_inj.mp

instance : MachineInt Int16 where
  toInt := Int16.toInt
  ofInt := Int16.ofInt
  minValue := -2 ^ 15
  maxValue := 2 ^ 15 - 1
  minValue_le := by decide
  le_maxValue := by decide
  toInt_ofInt _ h h' := Int16.toInt_ofInt_of_le h (Int.lt_of_le_sub_one h')
  le_toInt := Int16.le_toInt
  toInt_le a := Int.le_sub_one_of_lt a.toInt_lt
  toInt_inj _ _ := Int16.toInt_inj.mp

instance : MachineInt Int32 where
  toInt := Int32.toInt
  ofInt := Int32.ofInt
  minValue := -2 ^ 31
  maxValue := 2 ^ 31 - 1
  minValue_le := by decide
  le_maxValue := by decide
  toInt_ofInt _ h h' := Int32.toInt_ofInt_of_le h (Int.lt_of_le_sub_one h')
  le_toInt := Int32.le_toInt
  toInt_le a := Int.le_sub_one_of_lt a.toInt_lt
  toInt_inj _ _ := Int32.toInt_inj.mp

instance : MachineInt Int64 where
  toInt := Int64.toInt
  ofInt := Int64.ofInt
  minValue := -2 ^ 63
  maxValue := 2 ^ 63 - 1
  minValue_le := by decide
  le_maxValue := by decide
  toInt_ofInt _ h h' := Int64.toInt_ofInt_of_le h (Int.lt_of_le_sub_one h')
  le_toInt := Int64.le_toInt
  toInt_le a := Int.le_sub_one_of_lt a.toInt_lt
  toInt_inj _ _ := Int64.toInt_inj.mp

instance : MachineInt UInt8 where
  toInt a := a.toNat
  ofInt n := .ofNat n.toNat
  minValue := 0
  maxValue := 2 ^ 8 - 1
  minValue_le := le_rfl
  le_maxValue := by decide
  toInt_ofInt n h h' := by
    rw [UInt8.toNat_ofNat_of_lt' ((Int.toNat_lt h).mpr (Int.lt_of_le_sub_one h')),
      Int.toNat_of_nonneg h]
  le_toInt _ := Int.natCast_nonneg _
  toInt_le a := by
    have := a.toNat_lt
    omega
  toInt_inj _ _ h := UInt8.toNat_inj.mp (Int.ofNat_inj.mp h)

instance : MachineInt UInt16 where
  toInt a := a.toNat
  ofInt n := .ofNat n.toNat
  minValue := 0
  maxValue := 2 ^ 16 - 1
  minValue_le := le_rfl
  le_maxValue := by decide
  toInt_ofInt n h h' := by
    rw [UInt16.toNat_ofNat_of_lt' ((Int.toNat_lt h).mpr (Int.lt_of_le_sub_one h')),
      Int.toNat_of_nonneg h]
  le_toInt _ := Int.natCast_nonneg _
  toInt_le a := by
    have := a.toNat_lt
    omega
  toInt_inj _ _ h := UInt16.toNat_inj.mp (Int.ofNat_inj.mp h)

instance : MachineInt UInt32 where
  toInt a := a.toNat
  ofInt n := .ofNat n.toNat
  minValue := 0
  maxValue := 2 ^ 32 - 1
  minValue_le := le_rfl
  le_maxValue := by decide
  toInt_ofInt n h h' := by
    rw [UInt32.toNat_ofNat_of_lt' ((Int.toNat_lt h).mpr (Int.lt_of_le_sub_one h')),
      Int.toNat_of_nonneg h]
  le_toInt _ := Int.natCast_nonneg _
  toInt_le a := by
    have := a.toNat_lt
    omega
  toInt_inj _ _ h := UInt32.toNat_inj.mp (Int.ofNat_inj.mp h)

instance : MachineInt UInt64 where
  toInt a := a.toNat
  ofInt n := .ofNat n.toNat
  minValue := 0
  maxValue := 2 ^ 64 - 1
  minValue_le := le_rfl
  le_maxValue := by decide
  toInt_ofInt n h h' := by
    rw [UInt64.toNat_ofNat_of_lt' ((Int.toNat_lt h).mpr (Int.lt_of_le_sub_one h')),
      Int.toNat_of_nonneg h]
  le_toInt _ := Int.natCast_nonneg _
  toInt_le a := by
    have := a.toNat_lt
    omega
  toInt_inj _ _ h := UInt64.toNat_inj.mp (Int.ofNat_inj.mp h)
