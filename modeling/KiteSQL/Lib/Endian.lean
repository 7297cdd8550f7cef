import KiteSQL.Lib.LexCode

/-! Fixed-width little- and big-endian byte strings of natural numbers. -/
namespace Endian

open LexCode

def toLeBytes : Nat → Nat → List UInt8
  | 0, _ => []
  | n + 1, v => UInt8.ofNat v :: toLeBytes n (v / 256)

def fromLeBytes : List UInt8 → Nat
  | [] => 0
  | b :: bs => b.toNat + 256 * fromLeBytes bs

def toBeBytes (n v : Nat) : List UInt8 := (toLeBytes n v).reverse

def fromBeBytes (bs : List UInt8) : Nat := fromLeBytes bs.reverse

@[simp] theorem length_toLeBytes (n v : Nat) : (toLeBytes n v).length = n := by
  induction n generalizing v with
  | zero => rfl
  | succ n ih => simp [toLeBytes, ih]

@[simp] theorem length_toBeBytes (n v : Nat) : (toBeBytes n v).length = n := by
  simp [toBeBytes]

/-- Writing keeps the low `n` bytes only. -/
theorem fromLeBytes_toLeBytes_mod (n v : Nat) : fromLeBytes (toLeBytes n v) = v % 256 ^ n := by
  induction n generalizing v with
  | zero => simp [toLeBytes, fromLeBytes, Nat.mod_one]
  | succ n ih =>
    simp only [toLeBytes, fromLeBytes, ih, UInt8.toNat_ofNat', Nat.reducePow]
    rw [Nat.pow_succ, Nat.mul_comm (256 ^ n) 256, Nat.mod_mul]

variable {n v w k : Nat}

theorem fromLeBytes_toLeBytes (h : v < 256 ^ n) : fromLeBytes (toLeBytes n v) = v := by
  rw [fromLeBytes_toLeBytes_mod, Nat.mod_eq_of_lt h]

theorem fromBeBytes_toBeBytes (h : v < 256 ^ n) : fromBeBytes (toBeBytes n v) = v := by
  simp [fromBeBytes, toBeBytes, fromLeBytes_toLeBytes h]

theorem toBeBytes_succ (n v : Nat) :
    toBeBytes (n + 1) v = toBeBytes n (v / 256) ++ [UInt8.ofNat v] := by
  simp [toBeBytes, toLeBytes]

theorem compare_then_div_mod (v w : Nat) :
    (compare (v / 256) (w / 256)).then (compare (UInt8.ofNat v) (UInt8.ofNat w)) =
      compare v w := by
  have hc : compare (UInt8.ofNat v) (UInt8.ofNat w) = compare (v % 256) (w % 256) := by
    simp only [compare, compareOfLessAndEq, UInt8.lt_iff_toNat_lt, UInt8.toNat_ofNat',
      ← UInt8.toNat_inj, Nat.reducePow]
  rw [hc]
  simp only [compare, compareOfLessAndEq]
  split_ifs <;> simp <;> omega

/-- Big-endian words of one width compare as the numbers they denote. -/
theorem decides_toBeBytes (hv : v < 256 ^ n) (hw : w < 256 ^ n) :
    Decides (toBeBytes n v) (toBeBytes n w) (compare v w) := by
  induction n generalizing v w with
  | zero =>
    simp only [pow_zero, Nat.lt_one_iff] at hv hw
    subst hv hw
    exact decides_nil
  | succ n ih =>
    have hd : v / 256 < 256 ^ n := by
      rw [pow_succ] at hv
      exact Nat.div_lt_of_lt_mul (by omega)
    have he : w / 256 < 256 ^ n := by
      rw [pow_succ] at hw
      exact Nat.div_lt_of_lt_mul (by omega)
    rw [toBeBytes_succ, toBeBytes_succ]
    exact ((ih hd he).append (decides_singleton _ _)).of_eq (compare_then_div_mod v w)

theorem xor_two_pow (h : n < 2 ^ (k + 1)) :
    n ^^^ 2 ^ k = if n < 2 ^ k then n + 2 ^ k else n - 2 ^ k := by
  have hd : (n ^^^ 2 ^ k) / 2 ^ k = n / 2 ^ k ^^^ 1 := by
    rw [Nat.xor_div_two_pow, Nat.div_self (by positivity)]
  have hm : (n ^^^ 2 ^ k) % 2 ^ k = n % 2 ^ k := by
    rw [Nat.xor_mod_two_pow, Nat.mod_self, Nat.xor_zero]
  have hs := Nat.div_add_mod (n ^^^ 2 ^ k) (2 ^ k)
  rw [pow_succ] at h
  split_ifs with hlt
  · rw [hd, hm, Nat.div_eq_of_lt hlt, Nat.mod_eq_of_lt hlt, Nat.zero_xor, Nat.mul_one] at hs
    omega
  · have h1 : n / 2 ^ k = 1 := Nat.div_eq_of_lt_le (by omega) (by omega)
    have h2 := Nat.div_add_mod n (2 ^ k)
    rw [hd, hm, h1, Nat.xor_self, Nat.mul_zero] at hs
    rw [h1, Nat.mul_one] at h2
    omega

theorem or_two_pow (h : n < 2 ^ (k + 1)) : n ||| 2 ^ k = if n < 2 ^ k then n + 2 ^ k else n := by
  rw [pow_succ] at h
  split_ifs with hlt
  · have := Nat.two_pow_add_eq_or_of_lt hlt 1
    rw [Nat.mul_one] at this
    rw [Nat.or_comm, ← this, Nat.add_comm]
  · obtain ⟨r, rfl⟩ : ∃ r, n = 2 ^ k + r := ⟨n - 2 ^ k, by omega⟩
    have := Nat.two_pow_add_eq_or_of_lt (i := k) (b := r) (by omega) 1
    rw [Nat.mul_one] at this
    rw [this, Nat.or_assoc, Nat.or_comm r, ← Nat.or_assoc, Nat.or_self]

theorem and_two_pow_ne_zero (h : n < 2 ^ (k + 1)) : n &&& 2 ^ k ≠ 0 ↔ 2 ^ k ≤ n := by
  have hp : 0 < 2 ^ k := by positivity
  have hs := Nat.div_add_mod (n &&& 2 ^ k) (2 ^ k)
  rw [Nat.and_div_two_pow, Nat.and_mod_two_pow, Nat.div_self hp, Nat.mod_self, Nat.and_zero,
    Nat.add_zero] at hs
  rw [pow_succ] at h
  by_cases hlt : n < 2 ^ k
  · rw [Nat.div_eq_of_lt hlt, Nat.zero_and, Nat.mul_zero] at hs
    omega
  · have h1 : n / 2 ^ k = 1 := Nat.div_eq_of_lt_le (by omega) (by omega)
    rw [h1, Nat.and_self, Nat.mul_one] at hs
    omega

/-- Flipping the sign bit moves the signed range onto the unsigned one. -/
theorem toNat_xor_intMin (hw : 0 < w) (x : BitVec w) :
    ((x ^^^ BitVec.intMin w).toNat : Int) = x.toInt + 2 ^ (w - 1) := by
  obtain ⟨k, rfl⟩ : ∃ k, w = k + 1 := ⟨w - 1, by omega⟩
  have hx := x.isLt
  rw [BitVec.toNat_xor, BitVec.toNat_intMin_of_pos hw, Nat.add_sub_cancel, xor_two_pow hx,
    BitVec.toInt_eq_toNat_cond]
  rw [show (2 : Int) ^ k = ((2 ^ k : Nat) : Int) by push_cast; rfl]
  rw [pow_succ] at hx ⊢
  generalize 2 ^ k = p at hx ⊢
  split_ifs <;> omega

theorem compare_xor_intMin (hw : 0 < w) (x y : BitVec w) :
    compare (x ^^^ BitVec.intMin w).toNat (y ^^^ BitVec.intMin w).toNat =
      compare x.toInt y.toInt := by
  have hx := toNat_xor_intMin hw x
  have hy := toNat_xor_intMin hw y
  exact compare_eq_compare (by omega) (by omega)

end Endian
