import KiteSQL.Expression.SubString
import KiteSQL.Types.Evaluator.Numeric

/-! POSITION, and its law with SUBSTRING. -/
namespace KiteSQL.Position

open SubString String Result List Option

/-- `str::find`: the byte offset of the first place where the pattern starts. -/
def find (pattern : List Char) : List Char → Option Nat
  | [] => if pattern.isPrefixOf [] then some 0 else none
  | c :: chars =>
    if pattern.isPrefixOf (c :: chars) then some 0
    else (find pattern chars).map (· + c.utf8Size)

/-- `ScalarExpression::Position` on what its operands evaluate to. -/
def eval [Conversions] (expr inExpr : Result DataValue) : Result DataValue := do
  let pattern ← (← expr).cast (.varchar none .characters)
  let string ← (← inExpr).cast (.varchar none .characters)
  match find (pattern.utf8?.getD "").toList (string.utf8?.getD "").toList with
  | some pos => return .int32 (← addI32 (Int32.ofNat pos) 1)
  | none => return .int32 0

variable {s p : String} {chars pattern left right : List Char} {n : Nat}

/-- A search that succeeds splits the text before the first place where the pattern starts. -/
theorem find_eq_some (h : find pattern chars = some n) :
    (∃ left right, chars = left ++ right ∧ utf8Len left = n ∧ pattern <+: right) ∧
      ∀ left right, chars = left ++ right → utf8Len left < n → ¬ pattern <+: right := by
  induction chars generalizing n with
  | nil =>
    rw [find] at h
    split at h
    · next hpre =>
      cases h
      exact ⟨⟨[], [], rfl, rfl, List.isPrefixOf_iff_prefix.mp hpre⟩, fun _ _ _ hlt => absurd hlt
        (Nat.not_lt_zero _)⟩
    · cases h
  | cons c chars ih =>
    rw [find] at h
    split at h
    · next hpre =>
      cases h
      exact ⟨⟨[], c :: chars, rfl, rfl, List.isPrefixOf_iff_prefix.mp hpre⟩, fun _ _ _ hlt =>
        absurd hlt (Nat.not_lt_zero _)⟩
    · next hpre =>
      obtain ⟨m, hm, rfl⟩ := map_eq_some_iff.mp h
      obtain ⟨⟨left, right, rfl, hlen, hright⟩, hfirst⟩ := ih hm
      refine ⟨⟨c :: left, right, rfl, ?_, hright⟩, ?_⟩
      · rw [utf8Len_cons, hlen]
      · intro left' right' heq hlt hpre'
        obtain _ | ⟨d, left'⟩ := left'
        · exact hpre (List.isPrefixOf_iff_prefix.mpr (heq ▸ hpre'))
        · obtain ⟨rfl, hrest⟩ := cons_eq_cons.mp heq
          rw [utf8Len_cons] at hlt
          exact hfirst left' right' hrest (by omega) hpre'

theorem find_eq_none_iff : find pattern chars = none ↔ ¬ pattern <:+: chars := by
  induction chars with
  | nil => cases pattern <;> simp [find]
  | cons c chars ih =>
    rw [find, infix_cons_iff, ← List.isPrefixOf_iff_prefix]
    split
    · next hpre => simp [hpre]
    · next hpre => simp [hpre, ih]

theorem splitChars_eq_some (h : splitChars chars n = some (left, right)) :
    chars = left ++ right ∧ utf8Len left = n := by
  induction chars generalizing n left with
  | nil =>
    obtain _ | n := n
    · cases h
      exact ⟨rfl, rfl⟩
    · cases h
  | cons c chars ih =>
    obtain _ | n := n
    · cases h
      exact ⟨rfl, rfl⟩
    · rw [splitChars] at h
      split at h
      · obtain ⟨⟨left', right'⟩, hsplit, heq⟩ := map_eq_some_iff.mp h
        cases heq
        obtain ⟨rfl, hlen⟩ := ih hsplit
        refine ⟨rfl, ?_⟩
        rw [utf8Len_cons, hlen]
        omega
      · cases h

/-- The first place where a pattern starts is in the text, and its number is a machine word. -/
theorem find_lt (hsize : s.utf8ByteSize < 2 ^ 31) {pos : Nat}
    (h : find p.toList s.toList = some pos) : pos ≤ s.utf8ByteSize ∧ pos < 2 ^ 31 - 1 := by
  obtain ⟨⟨left, right, hsplit, hlen, hright⟩, hfirst⟩ := find_eq_some h
  have hsum : utf8Len left + utf8Len right = s.utf8ByteSize := by
    rw [← utf8Len_append, ← hsplit, utf8Len_toList]
  refine ⟨by omega, ?_⟩
  obtain _ | ⟨c, right⟩ := right
  · have hpos : ¬ 0 < pos := by
      intro hpos
      refine hfirst [] s.toList rfl hpos ?_
      rw [prefix_nil.mp hright]
      exact List.nil_prefix
    omega
  · have hc := c.utf8Size_pos
    rw [utf8Len_cons] at hsum
    omega

section Evaluation

variable [Conversions] {ty ty' : Utf8Type} {unit unit' : CharLengthUnits}

/-- A positive start that is inside the text cuts it at the byte before. -/
theorem cutFrom_of_pos {num : Int32} (hsize : s.utf8ByteSize < 2 ^ 31) (hpos : 0 < num.toInt)
    (hle : num.toInt - 1 ≤ s.utf8ByteSize) :
    cutFrom s (some (.ok (.int32 num))) =
      (splitOff s (num.toInt - 1).toNat).map fun parts => some parts.2 := by
  have hnum : evalToNum (.ok (.int32 num)) = .ok (some num) := evalToNum_eq rfl
  have hlen : (Int32.ofNat s.utf8ByteSize).toInt = s.utf8ByteSize :=
    Int32.toInt_ofNat_of_lt hsize
  have hpred := saturatingPred_of_lt num (by omega)
  have hcount : countFromEnd (Int32.ofNat s.utf8ByteSize) (2 ^ 32) (saturatingPred num) =
      .ok (saturatingPred num) := countFromEnd_of_nonneg _ (2 ^ 32 - 1) (by omega)
  have hin : ¬ saturatingPred num > Int32.ofNat s.utf8ByteSize := by
    rw [gt_iff_lt, Int32.lt_iff_toInt_lt]
    omega
  rw [cutFrom, hnum, ok_bind]
  simp only [hcount, ok_bind, if_neg hin, hpred]
  cases splitOff s (num.toInt - 1).toNat <;> rfl

/-- `SUBSTRING(s FROM k)` for a start inside the text. -/
theorem substring_of_pos {num : Int32} (hsize : s.utf8ByteSize < 2 ^ 31) (hpos : 0 < num.toInt)
    (hle : num.toInt - 1 ≤ s.utf8ByteSize) :
    SubString.eval (.ok (.utf8 s ty unit)) none (some (.ok (.int32 num))) =
      (splitOff s (num.toInt - 1).toNat).map fun parts =>
        .utf8 parts.2 (.variable none) .characters := by
  obtain ⟨ty', unit', hcast⟩ := cast_text s ty unit
  rw [SubString.eval, Result.ok_bind, hcast, Result.ok_bind]
  simp only [cutFrom_of_pos hsize hpos hle]
  cases splitOff s (num.toInt - 1).toNat <;> rfl

theorem eval_of_none (h : find p.toList s.toList = none) :
    eval (.ok (.utf8 p ty' unit')) (.ok (.utf8 s ty unit)) = .ok (.int32 0) := by
  obtain ⟨_, _, hs⟩ := cast_text s ty unit
  obtain ⟨_, _, hp⟩ := cast_text p ty' unit'
  simp only [eval, ok_bind, hs, hp, DataValue.utf8?, getD_some, h]
  rfl

theorem eval_of_some {pos : Nat} {k : Int32} (h : find p.toList s.toList = some pos)
    (hk : addI32 (Int32.ofNat pos) 1 = .ok k) :
    eval (.ok (.utf8 p ty' unit')) (.ok (.utf8 s ty unit)) = .ok (.int32 k) := by
  obtain ⟨_, _, hs⟩ := cast_text s ty unit
  obtain ⟨_, _, hp⟩ := cast_text p ty' unit'
  simp only [eval, ok_bind, hs, hp, DataValue.utf8?, getD_some, h, hk]
  rfl

/-- POSITION gives the first start from which SUBSTRING returns a text that begins with the
pattern, and zero where there is none. -/
theorem position_substring (s p : String) (hsize : s.utf8ByteSize < 2 ^ 31) :
    ∃ k : Int32, eval (.ok (.utf8 p ty' unit')) (.ok (.utf8 s ty unit)) = .ok (.int32 k) ∧
      0 ≤ k.toInt ∧ (k = 0 ↔ ¬ p.toList <:+: s.toList) ∧
      (0 < k.toInt →
        (∃ rest, SubString.eval (.ok (.utf8 s ty unit)) none (some (.ok (.int32 k))) =
            .ok (.utf8 rest (.variable none) .characters) ∧ p.toList <+: rest.toList) ∧
        ∀ k' : Int32, 0 < k'.toInt → k'.toInt < k.toInt → ∀ rest ty'' unit'',
          SubString.eval (.ok (.utf8 s ty unit)) none (some (.ok (.int32 k'))) =
            .ok (.utf8 rest ty'' unit'') → ¬ p.toList <+: rest.toList) := by
  cases hfind : find p.toList s.toList with
  | none =>
    have hnot := find_eq_none_iff.mp hfind
    refine ⟨0, eval_of_none hfind, by decide, ⟨fun _ => hnot, fun _ => rfl⟩, ?_⟩
    intro h
    exact absurd h (by decide)
  | some pos =>
    obtain ⟨hpos, hlt⟩ := find_lt hsize hfind
    have hint : (Int32.ofNat pos).toInt = pos := Int32.toInt_ofNat_of_lt (by omega)
    obtain ⟨k, hk, hkInt⟩ := addI32_of_le (Int32.ofNat pos) 1
      (by rw [hint, Int32.toInt_one]; omega) (by rw [hint, Int32.toInt_one]; omega)
    rw [hint, Int32.toInt_one] at hkInt
    obtain ⟨⟨left, right, hsplit, hlen, hright⟩, hfirst⟩ := find_eq_some hfind
    have hcut : splitOff s (k.toInt - 1).toNat = .ok (.ofList left, .ofList right) := by
      have hoffset : (k.toInt - 1).toNat = utf8Len left := by omega
      rw [splitOff, hoffset, hsplit, splitChars_append]
    refine ⟨k, eval_of_some hfind hk, by omega, ?_, fun _ => ⟨⟨.ofList right, ?_, ?_⟩, ?_⟩⟩
    · constructor
      · intro h0
        rw [h0] at hkInt
        exact absurd hkInt (by rw [Int32.toInt_zero]; omega)
      · intro hnot
        rw [← find_eq_none_iff, hfind] at hnot
        cases hnot
    · rw [substring_of_pos hsize (by omega) (by omega), hcut]
      rfl
    · rw [toList_ofList]
      exact hright
    · intro k' hk' hlt' rest ty'' unit'' heval
      rw [substring_of_pos hsize hk' (by omega), splitOff] at heval
      cases hchars : splitChars s.toList (k'.toInt - 1).toNat with
      | none =>
        rw [hchars] at heval
        cases heval
      | some parts =>
        obtain ⟨left', right'⟩ := parts
        obtain ⟨hsplit', hlen'⟩ := splitChars_eq_some hchars
        rw [hchars] at heval
        cases heval
        rw [toList_ofList]
        exact hfirst left' right' hsplit' (by omega)

end Evaluation

/-- The pattern "lo" starts at the fourth byte of a text of five characters. -/
theorem position_substring_hello :
    ∃ k : Int32, @eval .refusing (.ok (.utf8 "lo" (.variable none) .characters))
        (.ok (.utf8 "hello" (.variable none) .characters)) = .ok (.int32 k) ∧
      (0 < k.toInt →
        ∃ rest, @SubString.eval .refusing (.ok (.utf8 "hello" (.variable none) .characters)) none
          (some (.ok (.int32 k))) = .ok (.utf8 rest (.variable none) .characters) ∧
          "lo".toList <+: rest.toList) := by
  obtain ⟨k, hk, _, _, h⟩ := @position_substring .refusing (.variable none) (.variable none)
    .characters .characters "hello" "lo" (by decide)
  exact ⟨k, hk, fun hpos => (h hpos).1⟩

end KiteSQL.Position
