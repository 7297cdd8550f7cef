import Mathlib.Data.List.DropRight
import KiteSQL.Types.MemComparable

/-! Trailing spaces of a string and of its bytes. -/
namespace KiteSQL

open List

variable {s : String} {c : Char} {cs : List Char} {n : Nat}

/-- Cuts the trailing spaces of a stored CHAR value. -/
def trimSpaces (bytes : Bytes) : Bytes := bytes.rdropWhile (· == 0x20)

def trimEnd (s : String) : String := String.ofList (s.toList.rdropWhile (· == ' '))

theorem asBytes_ofList (cs : List Char) :
    asBytes (String.ofList cs) = cs.flatMap String.utf8EncodeChar := by
  rw [asBytes, String.toByteArray_ofList, utf8Encode]
  simp

theorem asBytes_eq_flatMap (s : String) : asBytes s = s.toList.flatMap String.utf8EncodeChar := by
  rw [← asBytes_ofList, String.ofList_toList]

theorem length_asBytes_replicate (n : Nat) :
    (asBytes (String.ofList (replicate n 'a'))).length = n := by
  rw [asBytes_ofList]
  induction n with
  | zero => rfl
  | succ n ih =>
    rw [replicate_succ, flatMap_cons, length_append, ih, Nat.add_comm]
    rfl

/-- The encoding of a character ends in the byte of a space only for a space. -/
theorem utf8EncodeChar_eq_concat (h : c ≠ ' ') :
    ∃ bytes b, String.utf8EncodeChar c = bytes ++ [b] ∧ b ≠ 0x20 := by
  have hlow : ∀ m : Nat, UInt8.ofNat (m % 64 + 128) ≠ 0x20 := by
    intro m hm
    have := congrArg UInt8.toNat hm
    rw [UInt8.toNat_ofNat', Nat.mod_eq_of_lt (by omega)] at this
    simp at this
  simp only [String.utf8EncodeChar]
  split_ifs with h₁ h₂ h₃
  · refine ⟨[], _, rfl, fun hv => h ?_⟩
    have hv := congrArg UInt8.toNat hv
    rw [UInt8.toNat_ofNat', Nat.mod_eq_of_lt (by omega)] at hv
    exact Char.ext (UInt32.toNat_inj.mp hv)
  · exact ⟨[_], _, rfl, hlow _⟩
  · exact ⟨[_, _], _, rfl, hlow _⟩
  · exact ⟨[_, _, _], _, rfl, hlow _⟩

theorem trimSpaces_concat_space (bytes : Bytes) : trimSpaces (bytes ++ [0x20]) = trimSpaces bytes :=
  rdropWhile_concat_pos _ _ _ rfl

theorem trimSpaces_append_spaces (bytes : Bytes) (n : Nat) :
    trimSpaces (bytes ++ replicate n 0x20) = trimSpaces bytes := by
  induction n with
  | zero => simp
  | succ n ih => rw [replicate_succ', ← append_assoc, trimSpaces_concat_space, ih]

theorem trimSpaces_flatMap (cs : List Char) :
    trimSpaces (cs.flatMap String.utf8EncodeChar) =
      (cs.rdropWhile (· == ' ')).flatMap String.utf8EncodeChar := by
  induction cs using reverseRecOn with
  | nil => rfl
  | append_singleton cs c ih =>
    rw [flatMap_append, flatMap_singleton]
    by_cases h : c = ' '
    · subst h
      rw [rdropWhile_concat_pos _ _ _ rfl, ← ih]
      exact trimSpaces_concat_space _
    · obtain ⟨bytes, b, hc, hb⟩ := utf8EncodeChar_eq_concat h
      rw [rdropWhile_concat_neg _ _ _ (by simpa using h), hc, ← append_assoc, trimSpaces,
        rdropWhile_concat_neg _ _ _ (by simpa using hb), append_assoc, ← hc,
        flatMap_append, flatMap_singleton]

theorem trimSpaces_asBytes (s : String) : trimSpaces (asBytes s) = asBytes (trimEnd s) := by
  rw [trimEnd, asBytes_ofList, asBytes_eq_flatMap, trimSpaces_flatMap]

theorem trimEnd_trimEnd (s : String) : trimEnd (trimEnd s) = trimEnd s := by
  rw [trimEnd, trimEnd, String.toList_ofList, rdropWhile_idempotent]

theorem rdropWhile_lengths (cs : List Char) :
    ∃ k, cs.length = (cs.rdropWhile (· == ' ')).length + k ∧
      (cs.flatMap String.utf8EncodeChar).length =
        ((cs.rdropWhile (· == ' ')).flatMap String.utf8EncodeChar).length + k := by
  induction cs using reverseRecOn with
  | nil => exact ⟨0, rfl, rfl⟩
  | append_singleton cs c ih =>
    by_cases h : c = ' '
    · subst h
      obtain ⟨k, hk, hb⟩ := ih
      refine ⟨k + 1, ?_, ?_⟩
      · rw [rdropWhile_concat_pos _ _ _ rfl, length_append, hk]
        rfl
      · rw [rdropWhile_concat_pos _ _ _ rfl, flatMap_append, length_append, hb]
        rfl
    · rw [rdropWhile_concat_neg _ _ _ (by simpa using h)]
      exact ⟨0, rfl, rfl⟩

/-- Trailing spaces take one byte each. -/
theorem trimEnd_lengths (s : String) :
    ∃ k, s.length = (trimEnd s).length + k ∧
      (asBytes s).length = (asBytes (trimEnd s)).length + k := by
  obtain ⟨k, hk, hb⟩ := rdropWhile_lengths s.toList
  refine ⟨k, ?_, ?_⟩
  · rw [trimEnd, String.length_ofList, ← String.length_toList, hk]
  · rw [trimEnd, asBytes_ofList, asBytes_eq_flatMap, hb]

end KiteSQL
