import KiteSQL.Lib.Endian

/-! Bitmaps in byte strings, the first bit being the highest of the first byte. -/
namespace Bitmap

open List

variable {bits : List UInt8} {b : UInt8} {i j n : Nat}

def mask (i : Nat) : UInt8 := 1 <<< UInt8.ofNat (7 - i)

def test (b : UInt8) (i : Nat) : Bool := decide (0 < b &&& mask i)

def flip (b : UInt8) (i : Nat) : UInt8 := b ||| mask i

/-- The bit of the whole map, absent past its end. -/
def get (bits : List UInt8) (i : Nat) : Option Bool := bits[i / 8]?.map (test · (i % 8))

def put (bits : List UInt8) (i : Nat) : List UInt8 := bits.modify (i / 8) (flip · (i % 8))

theorem toNat_mask (h : i < 8) : (mask i).toNat = 2 ^ (7 - i) := by
  have hk : ∀ i : Fin 8, (mask i).toNat = 2 ^ (7 - i.val) := by decide
  exact hk ⟨i, h⟩

theorem and_two_pow_eq_zero {m k : Nat} : m &&& 2 ^ k = 0 ↔ m.testBit k = false := by
  constructor
  · intro h
    have hk := congrArg (fun x => x.testBit k) h
    simpa using hk
  · intro h
    refine Nat.eq_of_testBit_eq fun i => ?_
    rw [Nat.testBit_and, Nat.testBit_two_pow, Nat.zero_testBit]
    by_cases hi : k = i
    · simp [← hi, h]
    · simp [hi]

theorem test_eq (h : i < 8) : test b i = b.toNat.testBit (7 - i) := by
  rw [test, Bool.eq_iff_iff, decide_eq_true_eq, UInt8.lt_iff_toNat_lt, UInt8.toNat_and,
    toNat_mask h, UInt8.toNat_zero, Nat.pos_iff_ne_zero, Ne, and_two_pow_eq_zero]
  simp

theorem test_zero (h : i < 8) : test 0 i = false := by
  rw [test_eq h]
  exact Nat.zero_testBit _

theorem test_flip (hi : i < 8) (hj : j < 8) : test (flip b j) i = (decide (i = j) || test b i) := by
  rw [test_eq hi, test_eq hi, flip, UInt8.toNat_or, toNat_mask hj, Nat.testBit_or,
    Nat.testBit_two_pow, Bool.or_comm]
  congr 2
  exact propext (by omega)

@[simp] theorem length_put : (put bits i).length = bits.length := by
  simp [put]

theorem get_replicate (h : i / 8 < n) : get (replicate n 0) i = some false := by
  rw [get, getElem?_replicate, if_pos h, Option.map_some, test_zero (Nat.mod_lt i (by decide))]

/-- Flipping one bit changes that bit and no other. -/
theorem get_put (h : j / 8 < bits.length) :
    get (put bits j) i = if i = j then some true else get bits i := by
  have hi : i % 8 < 8 := Nat.mod_lt i (by decide)
  have hj : j % 8 < 8 := Nat.mod_lt j (by decide)
  rw [get, put, getElem?_modify]
  by_cases hd : j / 8 = i / 8
  · obtain ⟨b, hb⟩ : ∃ b, bits[i / 8]? = some b := ⟨_, List.getElem?_eq_getElem (hd ▸ h)⟩
    have hm : i % 8 = j % 8 ↔ i = j := by omega
    simp only [hd, if_true, hb, Option.map_eq_map, Option.map_some, test_flip hi hj, get]
    by_cases he : i = j <;> simp [hm, he]
  · have hne : i ≠ j := by
      rintro rfl
      exact hd rfl
    simp [get, hd, hne]

theorem get_append (h : i / 8 < bits.length) (s : List UInt8) : get (bits ++ s) i = get bits i := by
  rw [get, getElem?_append_left h, get]

theorem put_append (h : i / 8 < bits.length) (s : List UInt8) :
    put (bits ++ s) i = put bits i ++ s := by
  refine ext_getElem? fun j => ?_
  rw [put, put, getElem?_modify, getElem?_append, getElem?_append, length_modify, getElem?_modify]
  by_cases hi : i / 8 = j
  · have hj : j < bits.length := hi ▸ h
    simp [hi, hj]
  · simp [hi]

end Bitmap
