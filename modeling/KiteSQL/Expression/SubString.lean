import KiteSQL.Types.Cast
import KiteSQL.Lib.MachineInt
import Mathlib.Data.String.Basic

/-! SUBSTRING, which cuts a text at byte offsets, against the characters in a window. -/
namespace KiteSQL.SubString

open MachineInt String Result List Int32

/-- The characters before a byte offset and those after it, if it is a character boundary. -/
def splitChars : List Char → Nat → Option (List Char × List Char)
  | chars, 0 => some ([], chars)
  | [], _ + 1 => none
  | c :: chars, n + 1 =>
    if c.utf8Size ≤ n + 1 then
      (splitChars chars (n + 1 - c.utf8Size)).map fun (left, right) => (c :: left, right)
    else none

/-- `String::split_off`: what stays and what is split off. -/
def splitOff (string : String) (offset : Nat) : Result (String × String) :=
  match splitChars string.toList offset with
  | some (left, right) => .ok (.ofList left, .ofList right)
  | none => .error (.panic "assertion failed: self.is_char_boundary(at)")

def addI32 (a b : Int32) : Result Int32 :=
  match checkedAdd a b with
  | some c => .ok c
  | none => .error (.panic "attempt to add with overflow")

/-- `saturating_sub(1)`. -/
def saturatingPred (n : Int32) : Int32 := (checkedSub n 1).getD n

/-- `while from < 0 { from += len_i + 1 }`. More rounds than there are words never end. -/
def countFromEnd (lenI : Int32) : Nat → Int32 → Result Int32
  | 0, _ => .error .divergence
  | fuel + 1, start =>
    if start < 0 then do countFromEnd lenI fuel (← addI32 start (← addI32 lenI 1))
    else .ok start

/-- A signed number as a machine address. -/
def asUsize (n : Int32) : Nat := (n.toInt % 2 ^ 64).toNat

/-- The first position of a window, where a negative one counts from the end. -/
def windowStart (s : String) (start : Int) : Int :=
  if start < 0 then s.length + 1 + start else start

/-- The characters whose positions, from one, lie in a window. -/
def window (s : String) (start len : Int) : String :=
  .ofList (((s.toList.zipIdx 1).filter fun p =>
    windowStart s start ≤ p.2 ∧ p.2 < windowStart s start + len).map Prod.fst)

/-- Characters of one byte only. -/
def Ascii (chars : List Char) : Prop := ∀ c ∈ chars, c.utf8Size = 1

/-- Byte offsets and character positions agree on the window. -/
structure Aligned (s : String) (start len : Int) : Prop where
  size : s.utf8ByteSize < 2 ^ 31
  forward : 0 ≤ len
  aligned : 1 ≤ start ∧ start ≤ s.length + 1 ∧ Ascii (s.toList.take (start - 1).toNat) ∧
      (Ascii ((s.toList.drop (start - 1).toNat).take len.toNat) ∨
        s.utf8ByteSize ≤ start - 1 + len) ∨
    start < 0 ∧ s.utf8ByteSize < 2 ^ 31 - 1 ∧ -s.length ≤ start ∧
      Ascii (s.toList.drop (s.length + start).toNat)

variable {s : String} {chars left right : List Char} {start len : Int} {n : Nat} {num : Int32}

theorem splitChars_append (left right : List Char) :
    splitChars (left ++ right) (utf8Len left) = some (left, right) := by
  induction left with
  | nil => cases right <;> rfl
  | cons c left ih =>
    have hpos := c.utf8Size_pos
    obtain ⟨m, hm⟩ : ∃ m, utf8Len (c :: left) = m + 1 := ⟨utf8Len (c :: left) - 1, by
      rw [utf8Len_cons]
      omega⟩
    have hsub : m + 1 - c.utf8Size = utf8Len left := by
      rw [← hm, utf8Len_cons, Nat.add_sub_cancel]
    rw [hm, cons_append, splitChars, if_pos (by rw [← hm, utf8Len_cons]; omega), hsub, ih]
    rfl

theorem Ascii.utf8Len_eq (h : Ascii chars) : utf8Len chars = chars.length := by
  induction chars with
  | nil => rfl
  | cons c chars ih =>
    have hc := h c mem_cons_self
    have ih := ih fun d hd => h d (mem_cons_of_mem c hd)
    rw [utf8Len_cons, ih, hc, length_cons]

theorem length_le_utf8Len (chars : List Char) : chars.length ≤ utf8Len chars := by
  induction chars with
  | nil => exact Nat.le_refl 0
  | cons c chars ih =>
    have hpos := c.utf8Size_pos
    rw [utf8Len_cons, length_cons]
    omega

/-- A window of one-byte characters, or one that reaches the end, is cut at its last character. -/
theorem splitChars_take (h : Ascii (chars.take n) ∨ utf8Len chars ≤ n) :
    splitChars chars (min n (utf8Len chars)) = some (chars.take n, chars.drop n) := by
  have hmin : min n (utf8Len chars) = utf8Len (chars.take n) := by
    have hlen := length_le_utf8Len chars
    rcases Nat.le_total chars.length n with hn | hn
    · rw [take_of_length_le hn] at h ⊢
      rcases h with h | h
      · rw [h.utf8Len_eq, Nat.min_eq_right hn]
      · exact Nat.min_eq_right h
    · rcases h with h | h
      · rw [h.utf8Len_eq, length_take, Nat.min_eq_left hn]
        exact Nat.min_eq_left (hn.trans hlen)
      · have heq : chars.length = n := by omega
        rw [Nat.min_eq_right h, ← heq, take_length]
  calc splitChars chars (min n (utf8Len chars))
      = splitChars (chars.take n ++ chars.drop n) (utf8Len (chars.take n)) := by
        rw [hmin, take_append_drop]
    _ = some (chars.take n, chars.drop n) := splitChars_append _ _

theorem filter_zipIdx (chars : List Char) (k a b : Nat) :
    ((chars.zipIdx k).filter fun p => a ≤ p.2 ∧ p.2 < b).map Prod.fst =
      (chars.drop (a - k)).take (b - max a k) := by
  induction chars generalizing k with
  | nil => simp
  | cons c chars ih =>
    rw [zipIdx_cons, filter_cons]
    by_cases hk : a ≤ k
    · by_cases hb : k < b
      · have hsub : b - max a k = b - max a (k + 1) + 1 := by omega
        have hz : a - k = 0 := by omega
        have hz' : a - (k + 1) = 0 := by omega
        rw [if_pos (by simp [hk, hb]), map_cons, ih, hsub, hz, hz']
        simp
      · have hz : b - max a k = 0 := by omega
        have hz' : b - max a (k + 1) = 0 := by omega
        rw [if_neg (by simp [hb]), ih, hz, hz', take_zero, take_zero]
    · have hsub : a - k = a - (k + 1) + 1 := by omega
      have hmax : max a k = max a (k + 1) := by omega
      rw [if_neg (by simp [hk]), ih, hsub, drop_succ_cons, hmax]

/-- A window that starts at a character holds the characters from there on. -/
theorem window_eq (hstart : 1 ≤ windowStart s start) (hlen : 0 ≤ len) :
    window s start len =
      .ofList ((s.toList.drop (windowStart s start - 1).toNat).take len.toNat) := by
  obtain ⟨a, ha⟩ := Int.eq_ofNat_of_zero_le (show 0 ≤ windowStart s start by omega)
  obtain ⟨b, rfl⟩ := Int.eq_ofNat_of_zero_le hlen
  have hcongr : ((s.toList.zipIdx 1).filter fun p => (a : Int) ≤ p.2 ∧ p.2 < (a : Int) + b) =
      (s.toList.zipIdx 1).filter fun p => a ≤ p.2 ∧ p.2 < a + b := by
    refine filter_congr fun p _ => ?_
    rw [decide_eq_decide]
    omega
  have hsub : a + b - max a 1 = b := by omega
  have hpred : ((a : Int) - 1).toNat = a - 1 := by omega
  rw [window, ha, hcongr, filter_zipIdx, hsub, hpred, Int.toNat_natCast]

theorem addI32_of_le (a b : Int32) (h : -2 ^ 31 ≤ a.toInt + b.toInt)
    (h' : a.toInt + b.toInt ≤ 2 ^ 31 - 1) :
    ∃ c, addI32 a b = .ok c ∧ c.toInt = a.toInt + b.toInt := by
  obtain ⟨c, hc, hint⟩ := checked_of_le (α := Int32) h h'
  refine ⟨c, ?_, hint⟩
  have hadd : checkedAdd a b = some c := hc
  rw [addI32, hadd]

theorem saturatingPred_of_lt (num : Int32) (h : -2 ^ 31 < num.toInt) :
    (saturatingPred num).toInt = num.toInt - 1 := by
  have hlt := num.toInt_lt
  obtain ⟨c, hc, hint⟩ := checked_of_le (α := Int32) (n := num.toInt - 1)
    (show -2 ^ 31 ≤ num.toInt - 1 by omega) (show num.toInt - 1 ≤ 2 ^ 31 - 1 by omega)
  have hsub : checkedSub num 1 = some c := hc
  rw [saturatingPred, hsub]
  exact hint

theorem countFromEnd_of_nonneg (lenI : Int32) (fuel : Nat) (h : 0 ≤ num.toInt) :
    countFromEnd lenI (fuel + 1) num = .ok num := by
  rw [countFromEnd, if_neg]
  rw [lt_iff_toInt_lt]
  exact Int.not_lt.mpr h

/-- One round is enough for a number that is no further from zero than the text is long. -/
theorem countFromEnd_of_neg {lenI : Int32} (fuel : Nat) (hlen : 0 ≤ lenI.toInt)
    (hlt : lenI.toInt < 2 ^ 31 - 1) (hneg : num.toInt < 0) (hle : 0 ≤ num.toInt + (lenI.toInt + 1))
    :
    ∃ c : Int32, c.toInt = num.toInt + (lenI.toInt + 1) ∧
      countFromEnd lenI (fuel + 2) num = .ok c := by
  obtain ⟨step, hstep, hstepInt⟩ := addI32_of_le lenI 1
    (by rw [toInt_one]; omega) (by rw [toInt_one]; omega)
  rw [toInt_one] at hstepInt
  obtain ⟨c, hc, hcInt⟩ := addI32_of_le num step (by omega) (by omega)
  rw [hstepInt] at hcInt
  refine ⟨c, hcInt, ?_⟩
  rw [countFromEnd, if_pos (by rw [lt_iff_toInt_lt]; exact hneg), hstep, ok_bind, hc, ok_bind]
  exact countFromEnd_of_nonneg lenI fuel (hcInt ▸ hle)

section Evaluation

variable [Conversions] {value : Result DataValue}

/-- `eval_to_num!`: the number, or none where the whole expression is NULL. -/
def evalToNum (value : Result DataValue) : Result (Option Int32) := do
  match ← (← value).cast .integer with
  | .int32 num => return some num
  | _ => return none

def cutFrom (string : String) : Option (Result DataValue) → Result (Option String)
  | none => .ok (some string)
  | some fromExpr => do
    match ← evalToNum fromExpr with
    | none => return none
    | some num =>
      let lenI := Int32.ofNat string.utf8ByteSize
      let start ← countFromEnd lenI (2 ^ 32) (saturatingPred num)
      if start > lenI then return none
      else return some (← splitOff string start.toInt.toNat).2

def cutFor (string : String) : Option (Result DataValue) → Result (Option String)
  | none => .ok (some string)
  | some forExpr => do
    match ← evalToNum forExpr with
    | none => return none
    | some num => return some (← splitOff string (min (asUsize num) string.utf8ByteSize)).1

/-- `ScalarExpression::SubString` on what its operands evaluate to. -/
def eval (expr : Result DataValue) (forExpr fromExpr : Option (Result DataValue)) :
    Result DataValue := do
  match ← (← expr).cast (.varchar none .characters) with
  | .utf8 string _ _ =>
    match ← cutFrom string fromExpr with
    | none => return .null
    | some string =>
      match ← cutFor string forExpr with
      | none => return .null
      | some string => return .utf8 string (.variable none) .characters
  | _ => return .null

theorem cutFor_eq (hnum : evalToNum value = .ok (some num)) (hpos : 0 ≤ num.toInt)
    (h : Ascii (chars.take num.toInt.toNat) ∨ utf8Len chars ≤ num.toInt.toNat) :
    cutFor (.ofList chars) (some value) = .ok (some (.ofList (chars.take num.toInt.toNat))) := by
  have husize : asUsize num = num.toInt.toNat := by
    have hlt := num.toInt_lt
    rw [asUsize, Int.emod_eq_of_lt hpos (by omega)]
  have hsplit : splitOff (.ofList chars) (min (asUsize num) (String.ofList chars).utf8ByteSize) =
      .ok (.ofList (chars.take num.toInt.toNat), .ofList (chars.drop num.toInt.toNat)) := by
    rw [splitOff, husize, utf8ByteSize_ofList, toList_ofList, splitChars_take h]
  rw [cutFor, hnum, ok_bind]
  simp only [hsplit, ok_bind, pure_eq]

/-- The source starts at the byte that the number names from either end. -/
theorem cutFrom_eq (hnum : evalToNum value = .ok (some num))
    (hsize : utf8Len (left ++ right) < 2 ^ 31)
    (h : 0 < num.toInt ∧ num.toInt - 1 = utf8Len left ∨
      num.toInt < 0 ∧ utf8Len (left ++ right) < 2 ^ 31 - 1 ∧ -num.toInt = utf8Len right) :
    cutFrom (.ofList (left ++ right)) (some value) = .ok (some (.ofList right)) := by
  rw [utf8Len_append] at hsize h
  have hlenI : (ofNat (utf8Len (left ++ right))).toInt = utf8Len left + utf8Len right := by
    rw [toInt_ofNat_of_lt (by rw [utf8Len_append]; omega), utf8Len_append]
    rfl
  have hpred := saturatingPred_of_lt num (by omega)
  have hcount : ∃ c : Int32, c.toInt = utf8Len left ∧
      countFromEnd (ofNat (utf8Len (left ++ right))) (2 ^ 32) (saturatingPred num) =
        .ok c := by
    rcases h with ⟨hpos, heq⟩ | ⟨hneg, hlt, heq⟩
    · exact ⟨_, hpred.trans heq, countFromEnd_of_nonneg _ (2 ^ 32 - 1) (by omega)⟩
    · obtain ⟨c, hc, hcount⟩ := countFromEnd_of_neg (2 ^ 32 - 2)
        (show 0 ≤ (ofNat (utf8Len (left ++ right))).toInt by omega) (by omega)
        (show (saturatingPred num).toInt < 0 by omega) (by omega)
      exact ⟨c, by omega, hcount⟩
  obtain ⟨c, hc, hcount⟩ := hcount
  have hle : ¬ c > ofNat (utf8Len (left ++ right)) := by
    rw [gt_iff_lt, lt_iff_toInt_lt]
    omega
  have hsplit : splitOff (.ofList (left ++ right)) c.toInt.toNat =
      .ok (.ofList left, .ofList right) := by
    rw [splitOff, hc, Int.toNat_natCast, toList_ofList, splitChars_append]
  rw [cutFrom, hnum, ok_bind]
  simp only [utf8ByteSize_ofList, hcount, ok_bind, if_neg hle, hsplit, pure_eq]

theorem cast_text (s : String) (ty : Utf8Type) (unit : CharLengthUnits) :
    ∃ ty' unit', (DataValue.utf8 s ty unit).cast (.varchar none .characters) =
      .ok (.utf8 s ty' unit') := by
  rw [DataValue.cast]
  split
  · exact ⟨ty, unit, rfl⟩
  · exact ⟨_, _, rfl⟩

theorem evalToNum_eq {value : DataValue} (h : value.cast .integer = .ok (.int32 num)) :
    evalToNum (.ok value) = .ok (some num) := by
  rw [evalToNum, ok_bind, h, ok_bind]
  rfl

/-- The text is cut before the first character of the window. -/
theorem Aligned.cutFrom_eq {fromValue : DataValue}
    (hfrom : fromValue.cast .integer = .ok (.int32 num)) (h : Aligned s num.toInt len) :
    ∃ k : Nat, windowStart s num.toInt = k + 1 ∧
      cutFrom s (some (.ok fromValue)) = .ok (some (.ofList (s.toList.drop k))) ∧
      (Ascii ((s.toList.drop k).take len.toNat) ∨ utf8Len (s.toList.drop k) ≤ len.toNat) := by
  have hlength : s.toList.length = s.length := length_toList
  have hforward := h.forward
  have happend : ∀ k, utf8Len (s.toList.take k) + utf8Len (s.toList.drop k) =
      s.utf8ByteSize := by
    intro k
    rw [← utf8Len_append, take_append_drop, utf8Len_toList]
  have hcut : ∀ k, (0 < num.toInt ∧ num.toInt - 1 = utf8Len (s.toList.take k) ∨
      num.toInt < 0 ∧ s.utf8ByteSize < 2 ^ 31 - 1 ∧ -num.toInt = utf8Len (s.toList.drop k)) →
      cutFrom s (some (.ok fromValue)) = .ok (some (.ofList (s.toList.drop k))) := by
    intro k hk
    have hall : utf8Len (s.toList.take k ++ s.toList.drop k) = s.utf8ByteSize := by
      rw [utf8Len_append, happend]
    have hcut := SubString.cutFrom_eq (evalToNum_eq hfrom) (hall ▸ h.size) (hall ▸ hk)
    rwa [take_append_drop, ofList_toList] at hcut
  rcases h.aligned with ⟨hone, hle, hascii, hwindow⟩ | ⟨hneg, hsize, hle, hascii⟩
  · have htake := hascii.utf8Len_eq
    rw [length_take, Nat.min_eq_left (by omega)] at htake
    refine ⟨(num.toInt - 1).toNat, ?_, hcut _ (.inl ⟨by omega, by omega⟩), ?_⟩
    · rw [windowStart, if_neg (by omega)]
      omega
    · have hsum := happend (num.toInt - 1).toNat
      rcases hwindow with hwindow | hwindow
      · exact .inl hwindow
      · exact .inr (by omega)
  · have hdrop := hascii.utf8Len_eq
    rw [length_drop] at hdrop
    refine ⟨(s.length + num.toInt).toNat, ?_, hcut _ (.inr ⟨hneg, by omega⟩), .inl ?_⟩
    · rw [windowStart, if_pos hneg]
      omega
    · intro c hc
      exact hascii c (mem_of_mem_take hc)

/-- Where bytes and characters agree on a window, SUBSTRING returns the characters in it. -/
theorem eval_eq_window {fromValue forValue : DataValue} {ty : Utf8Type} {unit : CharLengthUnits}
    {num count : Int32} (hfrom : fromValue.cast .integer = .ok (.int32 num))
    (hfor : forValue.cast .integer = .ok (.int32 count))
    (h : Aligned s num.toInt count.toInt) :
    eval (.ok (.utf8 s ty unit)) (some (.ok forValue)) (some (.ok fromValue)) =
      .ok (.utf8 (window s num.toInt count.toInt) (.variable none) .characters) := by
  obtain ⟨ty', unit', hcast⟩ := cast_text s ty unit
  obtain ⟨k, hk, hcut, hrest⟩ := h.cutFrom_eq hfrom
  have hpred : (windowStart s num.toInt - 1).toNat = k := by omega
  have hwindow : window s num.toInt count.toInt =
      .ofList ((s.toList.drop k).take count.toInt.toNat) := by
    rw [window_eq (by omega) h.forward, hpred]
  rw [eval, ok_bind, hcast, ok_bind]
  simp only [hcut, ok_bind, cutFor_eq (evalToNum_eq hfor) h.forward hrest, hwindow, pure_eq]

end Evaluation

/-- The second character of a text of one-byte characters, counted from the end. -/
theorem eval_eq_window_last :
    @eval .refusing (.ok (.utf8 "abc" (.variable none) .characters)) (some (.ok (.int32 1)))
      (some (.ok (.int32 (-2)))) =
        .ok (.utf8 (window "abc" (-2) 1) (.variable none) .characters) := by
  have hascii : Ascii ['b', 'c'] := by simp [Ascii, Char.utf8Size_eq_one_iff]
  exact @eval_eq_window "abc" .refusing (.int32 (-2)) (.int32 1) (.variable none) .characters (-2) 1
    rfl rfl ⟨by decide, by decide, .inr ⟨by decide, by decide, by decide, hascii⟩⟩

/-- Four windows of texts: a byte offset inside a character ends in a panic, a start of zero loses
the window, a start past the end gives NULL and a negative length gives the whole rest. -/
theorem misaligned_windows :
    @eval .refusing (.ok (.utf8 "é" (.variable none) .characters)) (some (.ok (.int32 1)))
        (some (.ok (.int32 2))) = .error (.panic "assertion failed: self.is_char_boundary(at)") ∧
      window "é" 2 1 = "" ∧
      @eval .refusing (.ok (.utf8 "ab" (.variable none) .characters)) (some (.ok (.int32 2)))
        (some (.ok (.int32 0))) = .ok (.utf8 "" (.variable none) .characters) ∧
      window "ab" 0 2 = "a" ∧
      @eval .refusing (.ok (.utf8 "ab" (.variable none) .characters)) (some (.ok (.int32 1)))
        (some (.ok (.int32 4))) = .ok .null ∧
      window "ab" 4 1 = "" ∧
      @eval .refusing (.ok (.utf8 "ab" (.variable none) .characters)) (some (.ok (.int32 (-1))))
        (some (.ok (.int32 1))) = .ok (.utf8 "ab" (.variable none) .characters) ∧
      window "ab" 1 (-1) = "" :=
  ⟨rfl, by decide, rfl, by decide, rfl, by decide, rfl, by decide⟩

end KiteSQL.SubString
