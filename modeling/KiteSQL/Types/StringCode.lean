import KiteSQL.Types.MemComparable

/-! The grouped string code keeps the order of byte strings and is read back exactly. -/
namespace KiteSQL

open LexCode ByteReader List

variable {a b g s : Bytes}

/-- A padded group and its marker. -/
def stringGroup (a : Bytes) : Bytes :=
  a ++ List.replicate (8 - a.length) 0 ++ [0xFF - UInt8.ofNat (8 - a.length)]

theorem encodeString_of_lt (h : a.length < 8) : encodeString a = stringGroup a := by
  rw [encodeString, if_neg (by simpa [encodeGroupSize] using h)]
  rfl

theorem encodeString_of_le (h : 8 ≤ a.length) :
    encodeString a = stringGroup (a.take 8) ++ encodeString (a.drop 8) := by
  have hl : (a.take 8).length = 8 := by simpa using h
  rw [encodeString, if_pos (show encodeGroupSize ≤ a.length from h)]
  simp [stringGroup, hl, encodeGroupSize, encodeMarker]

theorem compare_marker {m n : Nat} (hm : m ≤ 8) (hn : n ≤ 8) :
    compare (0xFF - UInt8.ofNat (8 - m)) (0xFF - UInt8.ofNat (8 - n)) = compare m n := by
  interval_cases m <;> interval_cases n <;> rfl

theorem decides_stringGroup (ha : a.length ≤ 8) (hb : b.length ≤ 8) :
    Decides (stringGroup a) (stringGroup b) (compare a b) := by
  have hz : ∀ y : UInt8, compare 0 y ≠ .gt := by
    intro y
    simp only [compare, compareOfLessAndEq]
    split_ifs <;> simp_all
  have hl : (a ++ replicate (8 - a.length) (0 : UInt8)).length =
      (b ++ replicate (8 - b.length) 0).length := by
    simp only [length_append, length_replicate]
    omega
  rw [← compare_pad hz ha hb, ← compare_marker ha hb]
  exact (decides_of_length hl).append (decides_singleton _ _)

theorem decides_encodeString_of_lt_of_le (ha : a.length < 8) (hb : 8 ≤ b.length) :
    Decides (encodeString a) (encodeString b) (compare a b) := by
  have hl : (b.take 8).length = 8 := by simpa using hb
  have hc : compare a b = compare a (b.take 8) := by
    have := compare_append_of_length_lt (a := a) (b := b.take 8) (by omega) (b.drop 8)
    rwa [take_append_drop] at this
  have hne : compare a (b.take 8) ≠ .eq := by
    intro he
    have := congrArg length (Std.LawfulEqOrd.compare_eq_iff_eq.mp he)
    omega
  have hg := decides_stringGroup ha.le hl.le
  rw [encodeString_of_lt ha, encodeString_of_le hb, hc]
  simpa using hg.append_of_ne hne [] (encodeString (b.drop 8))

/-- The encodings of two byte strings compare as the strings, whatever follows them. -/
theorem decides_encodeString (a b : Bytes) :
    Decides (encodeString a) (encodeString b) (compare a b) := by
  induction hn : a.length using Nat.strong_induction_on generalizing a b with
  | _ n ih =>
    by_cases ha : a.length < 8 <;> by_cases hb : b.length < 8
    · rw [encodeString_of_lt ha, encodeString_of_lt hb]
      exact decides_stringGroup ha.le hb.le
    · exact decides_encodeString_of_lt_of_le ha (by omega)
    · have hs := (decides_encodeString_of_lt_of_le hb (b := a) (by omega)).symm
      rwa [← Std.OrientedOrd.eq_swap] at hs
    · have hl : (a.take 8).length = (b.take 8).length := by simp; omega
      have hg := decides_stringGroup (a := a.take 8) (b := b.take 8) (by simp) (by simp)
      have hr := ih (a.drop 8).length (by simp; omega) (a.drop 8) (b.drop 8) rfl
      have hc := decides_of_length hl (a.drop 8) (b.drop 8)
      rw [take_append_drop, take_append_drop] at hc
      rw [encodeString_of_le (a := a) (by omega), encodeString_of_le (a := b) (by omega), hc]
      exact hg.append hr

/-- One round of the decoding loop on a group `g` with pad count `8 - n`. -/
theorem decodeString_group (hg : g.length = 8) {n : Nat} (hn : n ≤ 8) (s : Bytes) :
    decodeString (g ++ (0xFF - UInt8.ofNat (8 - n)) :: s) =
      if n < 8 then .ok (g.take n, s)
      else (decodeString s).bind fun p => .ok (g ++ p.1, p.2) := by
  have hp : (encodeMarker - (0xFF - UInt8.ofNat (8 - n))).toNat = 8 - n := by
    interval_cases n <;> rfl
  have hd : (g ++ (0xFF - UInt8.ofNat (8 - n)) :: s).drop 9 = s := by
    rw [append_cons, drop_left']
    simp [hg]
  rw [decodeString]
  simp only [encodeGroupSize, length_append, length_cons, hg, take_left' hg,
    drop_left' hg, headD_cons, hp, Nat.reduceAdd, hd]
  rw [if_neg (by omega), if_neg (by omega), Nat.sub_sub_self hn]
  split_ifs with h h' h'
  · rfl
  · omega
  · omega
  · have h8 : n = 8 := by omega
    rw [h8, ← hg, take_length]
    rfl

theorem decodeString_stringGroup (ha : a.length ≤ 8) (s : Bytes) :
    decodeString (stringGroup a ++ s) =
      if a.length < 8 then .ok (a, s)
      else (decodeString s).bind fun p => .ok (a ++ p.1, p.2) := by
  have hl : (a ++ replicate (8 - a.length) (0 : UInt8)).length = 8 := by
    simp only [length_append, length_replicate]
    omega
  rw [stringGroup, append_assoc, singleton_append, decodeString_group hl ha, take_left' rfl]
  split_ifs with h
  · rfl
  · simp [show 8 - a.length = 0 by omega]

/-- Decoding finds the end of the encoded string by itself. -/
theorem reads_decodeString (a : Bytes) : Reads decodeString (encodeString a) a := by
  intro s
  induction hn : a.length using Nat.strong_induction_on generalizing a with
  | _ n ih =>
    by_cases ha : a.length < 8
    · rw [encodeString_of_lt ha, decodeString_stringGroup ha.le, if_pos ha]
    · have hr := ih (a.drop 8).length (by simp; omega) (a.drop 8) rfl
      rw [encodeString_of_le (by omega), append_assoc,
        decodeString_stringGroup (by simp), hr, if_neg (by simp; omega)]
      simp [Except.bind]

end KiteSQL
