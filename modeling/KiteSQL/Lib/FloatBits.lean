import KiteSQL.Lib.Endian

/-! IEEE 754 binary interchange formats seen through their bit patterns. -/

/-- A format is known by its sign bit and by the bit pattern of positive infinity. -/
structure FloatBits where
  signBit : Nat
  infinity : Nat

namespace FloatBits

def binary32 : FloatBits := ⟨0x80000000, 0x7f800000⟩

def binary64 : FloatBits := ⟨0x8000000000000000, 0x7ff0000000000000⟩

variable (F : FloatBits)

def isNegative (u : Nat) : Bool := F.signBit ≤ u

def magnitude (u : Nat) : Nat := u % F.signBit

def isNan (u : Nat) : Bool := F.infinity < F.magnitude u

/-- The place of a number in the order of its format; both zeros share one place. -/
def rank (u : Nat) : Int := if F.isNegative u then -F.magnitude u else F.magnitude u

/-- The comparison `f >= 0.0`, false of every NaN. -/
def geZero (u : Nat) : Bool := !F.isNan u && 0 ≤ F.rank u

/-- The total order that puts NaN above every number and equal to itself. -/
def orderedCmp (u v : Nat) : Ordering :=
  match F.isNan u, F.isNan v with
  | true, true => .eq
  | true, false => .gt
  | false, true => .lt
  | false, false => compare (F.rank u) (F.rank v)

/-- Numbers from zero on get the sign bit set, all other patterns are complemented. -/
def encodeKey (u : Nat) : Nat :=
  if F.geZero u then (if u < F.signBit then u + F.signBit else u) else 2 * F.signBit - 1 - u

def decodeKey (k : Nat) : Nat :=
  if F.signBit ≤ k then k - F.signBit else 2 * F.signBit - 1 - k

/-- A NaN whose sign bit is clear, the only pattern that its key does not determine. -/
def isPositiveNan (u : Nat) : Bool := F.isNan u && !F.isNegative u

variable {F} {u v : Nat}

theorem magnitude_of_lt (h : u < F.signBit) : F.magnitude u = u := Nat.mod_eq_of_lt h

theorem magnitude_of_le (h : F.signBit ≤ u) (h' : u < 2 * F.signBit) :
    F.magnitude u = u - F.signBit := by
  rw [magnitude, Nat.mod_eq_sub_mod h, Nat.mod_eq_of_lt (by omega)]

theorem orderedCmp_self (u : Nat) : F.orderedCmp u u = .eq := by
  unfold orderedCmp
  cases F.isNan u <;> simp

/-- A pattern below the sign bit is read back unless it is a NaN. -/
theorem decodeKey_encodeKey_of_lt (h : u < F.signBit) (hn : F.isNan u = false) :
    F.decodeKey (F.encodeKey u) = u := by
  have hg : F.geZero u = true := by
    simp [geZero, hn, rank, isNegative, magnitude_of_lt h]
    omega
  simp [encodeKey, decodeKey, hg, h]

theorem decodeKey_encodeKey_nan (h : u < F.signBit) (hn : F.isNan u = true) :
    F.decodeKey (F.encodeKey u) = F.signBit - 1 - u := by
  have hg : F.geZero u = false := by simp [geZero, hn]
  rw [encodeKey, hg, if_neg (by simp), decodeKey, if_pos (by omega)]
  omega

theorem decodeKey_encodeKey_of_le (h : F.signBit < u) (h' : u < 2 * F.signBit) :
    F.decodeKey (F.encodeKey u) = u := by
  have hg : F.geZero u = false := by
    simp [geZero, rank, isNegative, magnitude_of_le h.le h', h.le]
    omega
  rw [encodeKey, hg, if_neg (by simp), decodeKey, if_neg (by omega)]
  omega

theorem orderedCmp_decodeKey_signBit :
    F.orderedCmp (F.decodeKey (F.encodeKey F.signBit)) F.signBit = .eq := by
  have hm : F.magnitude F.signBit = 0 := by simp [magnitude]
  have hm0 : F.magnitude 0 = 0 := by simp [magnitude]
  have hg : F.geZero F.signBit = true := by simp [geZero, isNan, rank, hm]
  have hd : F.decodeKey (F.encodeKey F.signBit) = 0 := by simp [encodeKey, decodeKey, hg]
  rw [hd]
  simp [orderedCmp, isNan, rank, hm, hm0]

/-- A float is read back from its key as an equal one unless it is a NaN with clear sign bit. -/
theorem orderedCmp_decodeKey (hs : F.signBit ≤ 2 * F.infinity) (h : u < 2 * F.signBit) :
    F.orderedCmp (F.decodeKey (F.encodeKey u)) u = .eq ↔ F.isPositiveNan u = false := by
  rcases lt_trichotomy u F.signBit with hlt | rfl | hgt
  · have hneg : F.isNegative u = false := by simp [isNegative, hlt]
    cases hn : F.isNan u with
    | false => simp [decodeKey_encodeKey_of_lt hlt hn, orderedCmp_self, isPositiveNan, hn]
    | true =>
      have hu : F.infinity < u := by simpa [isNan, magnitude_of_lt hlt] using hn
      have hd : F.isNan (F.signBit - 1 - u) = false := by
        simp only [isNan, magnitude_of_lt (F := F) (u := F.signBit - 1 - u) (by omega)]
        simp
        omega
      simp [decodeKey_encodeKey_nan hlt hn, isPositiveNan, hn, hneg, orderedCmp, hd]
  · have hneg : F.isNegative F.signBit = true := by simp [isNegative]
    simp [orderedCmp_decodeKey_signBit, isPositiveNan, hneg]
  · have hneg : F.isNegative u = true := by simp [isNegative, hgt.le]
    simp [decodeKey_encodeKey_of_le hgt h, orderedCmp_self, isPositiveNan, hneg]

section

variable (hu : u < 2 * F.signBit)
include hu

theorem encodeKey_zero (h : F.magnitude u = 0) (hn : F.isNan u = false) :
    F.encodeKey u = F.signBit := by
  have hg : F.geZero u = true := by simp [geZero, hn, rank, h]
  rw [encodeKey, if_pos hg]
  rcases lt_or_ge u F.signBit with hlt | hle
  · rw [magnitude_of_lt hlt] at h
    rw [if_pos hlt, h, Nat.zero_add]
  · rw [magnitude_of_le hle hu] at h
    rw [if_neg (by omega)]
    omega

/-- Numbers in one place of the order are the same pattern, or zeros. -/
theorem eq_or_zero_of_rank (hv : v < 2 * F.signBit) (h : F.rank u = F.rank v) :
    u = v ∨ F.magnitude u = 0 ∧ F.magnitude v = 0 := by
  unfold rank isNegative at h
  rcases lt_or_ge u F.signBit with hlu | hlu <;> rcases lt_or_ge v F.signBit with hlv | hlv
  · have hmu := magnitude_of_lt hlu
    have hmv := magnitude_of_lt hlv
    simp only [hlu.not_ge, hlv.not_ge, decide_false, Bool.false_eq_true, if_false] at h
    omega
  · simp only [hlu.not_ge, hlv, decide_false, decide_true, Bool.false_eq_true, if_false,
      if_true] at h
    omega
  · simp only [hlu, hlv.not_ge, decide_false, decide_true, Bool.false_eq_true, if_false,
      if_true] at h
    omega
  · have hmu := magnitude_of_le hlu hu
    have hmv := magnitude_of_le hlv hv
    simp only [hlu, hlv, decide_true, if_true] at h
    omega

/-- Equal floats share their key unless they are NaNs of different patterns. -/
theorem encodeKey_congr (hv : v < 2 * F.signBit) (h : F.orderedCmp u v = .eq)
    (hn : F.isNan u = true → F.isNan v = true → u = v) : F.encodeKey u = F.encodeKey v := by
  unfold orderedCmp at h
  split at h
  · next hnu hnv => rw [hn hnu hnv]
  · cases h
  · cases h
  · next hnu hnv =>
    rcases eq_or_zero_of_rank hu hv (compare_eq_iff_eq.mp h) with rfl | ⟨hmu, hmv⟩
    · rfl
    · rw [encodeKey_zero hu hmu hnu, encodeKey_zero hv hmv hnv]

theorem encodeKey_eq_rank (hn : F.isNan u = false) :
    (F.encodeKey u : Int) =
      if 0 ≤ F.rank u then F.signBit + F.rank u else F.signBit + F.rank u - 1 := by
  unfold encodeKey geZero rank isNegative
  rcases lt_or_ge u F.signBit with hlt | hle
  · simp [hn, hlt.not_ge, hlt, magnitude_of_lt hlt]
    omega
  · simp only [hn, hle, magnitude_of_le hle hu, decide_true, if_true, Bool.not_false,
      Bool.true_and, decide_eq_true_eq, hle.not_gt, if_false]
    split <;> omega

/-- The keys of numbers compare as the numbers do. -/
theorem compare_encodeKey (hv : v < 2 * F.signBit) (hnu : F.isNan u = false)
    (hnv : F.isNan v = false) : compare (F.encodeKey u) (F.encodeKey v) = F.orderedCmp u v := by
  have hku := encodeKey_eq_rank hu hnu
  have hkv := encodeKey_eq_rank hv hnv
  simp only [orderedCmp, hnu, hnv]
  refine LexCode.compare_eq_compare ?_ ?_ <;> split at hku <;> split at hkv <;> omega

end

section Words
variable {k : Nat} (hF : F.signBit = 2 ^ k) (x : BitVec (k + 1))

include hF

/-- The key as the bit operations compute it. -/
theorem toNat_encode :
    (if F.geZero x.toNat then x ||| BitVec.intMin (k + 1) else ~~~x).toNat =
      F.encodeKey x.toNat := by
  unfold encodeKey
  rw [hF]
  split
  · rw [BitVec.toNat_or, BitVec.toNat_intMin_of_pos (by omega), Nat.add_sub_cancel]
    exact Endian.or_two_pow x.isLt
  · rw [BitVec.toNat_not, pow_succ, Nat.mul_comm]

theorem toNat_decode :
    (if x &&& BitVec.intMin (k + 1) ≠ 0 then x &&& ~~~BitVec.intMin (k + 1) else ~~~x).toNat =
      F.decodeKey x.toNat := by
  have hx := x.isLt
  have hm : (BitVec.intMin (k + 1)).toNat = 2 ^ k := by
    rw [BitVec.toNat_intMin_of_pos (by omega), Nat.add_sub_cancel]
  have hc : x &&& BitVec.intMin (k + 1) ≠ 0 ↔ 2 ^ k ≤ x.toNat := by
    rw [← Endian.and_two_pow_ne_zero hx, ← hm, ← BitVec.toNat_and, ← BitVec.toNat_inj.ne]
    rfl
  unfold decodeKey
  rw [hF]
  by_cases h : 2 ^ k ≤ x.toNat
  · have hn : 2 ^ (k + 1) - 1 - 2 ^ k = 2 ^ k - 1 := by
      rw [pow_succ]
      omega
    rw [if_pos (hc.mpr h), if_pos h, BitVec.toNat_and, BitVec.toNat_not, hm, hn,
      Nat.and_two_pow_sub_one_eq_mod, Nat.mod_eq_sub_mod h]
    rw [pow_succ] at hx
    exact Nat.mod_eq_of_lt (by omega)
  · rw [if_neg (fun hn => h (hc.mp hn)), if_neg h, BitVec.toNat_not, pow_succ, Nat.mul_comm]

end Words

/-- The place of a pattern in the order that puts NaN above every number. -/
def place (F : FloatBits) (u : Nat) : Int := if F.isNan u then F.infinity + 1 else F.rank u

theorem rank_le (h : F.isNan u = false) : F.rank u ≤ F.infinity := by
  have hm : F.magnitude u ≤ F.infinity := by simpa [isNan] using h
  unfold rank
  split <;> omega

theorem orderedCmp_eq_compare_place (u v : Nat) :
    F.orderedCmp u v = compare (F.place u) (F.place v) := by
  unfold orderedCmp place
  cases hu : F.isNan u <;> cases hv : F.isNan v
  · rfl
  · have := rank_le hu
    rw [if_neg (by simp), if_pos rfl, eq_comm, compare_lt_iff_lt]
    omega
  · have := rank_le hv
    rw [if_pos rfl, if_neg (by simp), eq_comm, compare_gt_iff_gt]
    omega
  · simp

end FloatBits
