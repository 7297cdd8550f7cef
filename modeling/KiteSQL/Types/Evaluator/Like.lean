import KiteSQL.Types.Padding
import KiteSQL.Lib.Wildcard

/-! The matcher behind `LIKE`, over byte positions in the text and in the pattern. -/
namespace KiteSQL

open Wildcard List

/-- The characters from a byte position on, if it lies between two characters. -/
def getFrom : List Char → Nat → Option (List Char)
  | input, 0 => some input
  | [], _ + 1 => none
  | ch :: input, index + 1 =>
    if index + 1 < ch.utf8Size then none else getFrom input (index + 1 - ch.utf8Size)

def nextCharAt (input : String) (index : Nat) : Option (Char × Nat) := do
  let ch ← (← getFrom input.toList index).head?
  return (ch, index + ch.utf8Size)

def nextLikePatternToken (pattern : String) (index : Nat) (escapeChar : Option Char) :
    Option (Token Char × Nat) := do
  let (ch, nextIndex) ← nextCharAt pattern index
  if escapeChar = some ch then
    match nextCharAt pattern nextIndex with
    | some (escapedCh, escapedNextIndex) => return (.literal escapedCh, escapedNextIndex)
    | none => return (.literal ch, nextIndex)
  else if ch = '%' then
    return (.anyMany, nextIndex)
  else if ch = '_' then
    return (.anyOne, nextIndex)
  else
    return (.literal ch, nextIndex)

variable {input rest : List Char} {s : String} {index next : Nat} {ch : Char}

theorem length_asBytes (s : String) : (asBytes s).length = (s.toList.map Char.utf8Size).sum := by
  rw [← String.ofList_toList (s := s), asBytes_ofList, String.toList_ofList]
  induction s.toList with
  | nil => rfl
  | cons ch input ih =>
    rw [flatMap_cons, length_append, ih, String.length_utf8EncodeChar, map_cons, sum_cons]

theorem getFrom_zero : getFrom input 0 = some input := by
  cases input <;> rfl

theorem getFrom_cons (ch : Char) (input : List Char) (index : Nat) :
    getFrom (ch :: input) (index + ch.utf8Size) = getFrom input index := by
  have hpos := ch.utf8Size_pos
  obtain ⟨n, hn⟩ : ∃ n, index + ch.utf8Size = n + 1 := ⟨index + ch.utf8Size - 1, by omega⟩
  rw [hn, getFrom, if_neg (by omega), ← hn, Nat.add_sub_cancel]

/-- A position with characters behind it is where the characters before it end. -/
theorem getFrom_eq_some (h : getFrom input index = some rest) :
    ∃ before, input = before ++ rest ∧ index = (before.map Char.utf8Size).sum := by
  induction input generalizing index with
  | nil =>
    cases index with
    | zero =>
      cases h
      exact ⟨[], rfl, rfl⟩
    | succ index => cases h
  | cons ch input ih =>
    cases index with
    | zero =>
      cases h
      exact ⟨[], rfl, rfl⟩
    | succ index =>
      rw [getFrom] at h
      split at h
      · cases h
      · obtain ⟨before, rfl, hi⟩ := ih h
        refine ⟨ch :: before, rfl, ?_⟩
        rw [map_cons, sum_cons]
        omega

theorem getFrom_append (before rest : List Char) :
    getFrom (before ++ rest) (before.map Char.utf8Size).sum = some rest := by
  induction before with
  | nil => exact getFrom_zero
  | cons ch before ih =>
    rw [map_cons, sum_cons, Nat.add_comm, cons_append, getFrom_cons, ih]

theorem nextCharAt_cons (h : getFrom s.toList index = some (ch :: rest)) :
    nextCharAt s index = some (ch, index + ch.utf8Size) := by
  rw [nextCharAt, h]
  rfl

theorem nextCharAt_nil (h : getFrom s.toList index = some []) : nextCharAt s index = none := by
  rw [nextCharAt, h]
  rfl

theorem getFrom_next (h : getFrom input index = some (ch :: rest)) :
    getFrom input (index + ch.utf8Size) = some rest := by
  obtain ⟨before, rfl, rfl⟩ := getFrom_eq_some h
  have := getFrom_append (before ++ [ch]) rest
  simpa using this

/-- A position is before the end exactly when a character follows. -/
theorem lt_length_iff (h : getFrom s.toList index = some rest) :
    index < (asBytes s).length ↔ rest ≠ [] := by
  obtain ⟨before, hs, rfl⟩ := getFrom_eq_some h
  rw [length_asBytes, hs, map_append, sum_append]
  cases rest with
  | nil => simp
  | cons ch rest =>
    have := ch.utf8Size_pos
    rw [map_cons, sum_cons]
    simp only [ne_eq, reduceCtorEq, not_false_eq_true, iff_true]
    omega

/-- Reading a character moves the position forward, at most to the end. -/
theorem nextCharAt_bounds (h : nextCharAt s index = some (ch, next)) :
    index < next ∧ next ≤ (asBytes s).length := by
  rw [nextCharAt] at h
  cases hg : getFrom s.toList index with
  | none => simp [hg] at h
  | some rest =>
    cases rest with
    | nil => simp [hg] at h
    | cons c rest =>
      rw [hg] at h
      cases h
      have hpos := ch.utf8Size_pos
      obtain ⟨before, hs, hi⟩ := getFrom_eq_some (getFrom_next hg)
      rw [length_asBytes, hs, map_append, sum_append]
      omega

theorem nextLikePatternToken_bounds {escapeChar : Option Char} {token : Token Char}
    (h : nextLikePatternToken s index escapeChar = some (token, next)) :
    index < next ∧ next ≤ (asBytes s).length := by
  rw [nextLikePatternToken] at h
  cases hc : nextCharAt s index with
  | none => simp [hc] at h
  | some first =>
    obtain ⟨ch, mid⟩ := first
    have hb := nextCharAt_bounds hc
    simp only [hc, Option.bind_eq_bind, Option.bind_some] at h
    split at h
    · cases hd : nextCharAt s mid with
      | none =>
        rw [hd] at h
        cases h
        exact hb
      | some second =>
        obtain ⟨escaped, after⟩ := second
        rw [hd] at h
        cases h
        have hb' := nextCharAt_bounds hd
        omega
    · split_ifs at h <;> cases h <;> exact hb

/-- Where the matcher stands; the last `%` lies behind the pattern position. -/
structure LikeState where
  valueIdx : Nat
  patternIdx : Nat
  lastMany : Option (Nat × Nat)
  lastMany_le : ∀ many ∈ lastMany, many.1 ≤ patternIdx

namespace LikeState

/-- The arms of the loop that continue with the next token. -/
def advance (value pattern : String) (escapeChar : Option Char) (state : LikeState) :
    Option LikeState :=
  match h : nextLikePatternToken pattern state.patternIdx escapeChar with
  | some (.literal patternCh, nextPatternIdx) =>
    match nextCharAt value state.valueIdx with
    | some (valueCh, nextValueIdx) =>
      if valueCh = patternCh then
        some ⟨nextValueIdx, nextPatternIdx, state.lastMany, fun many hm =>
          (state.lastMany_le many hm).trans (nextLikePatternToken_bounds h).1.le⟩
      else none
    | none => none
  | some (.anyOne, nextPatternIdx) =>
    match nextCharAt value state.valueIdx with
    | some (_, nextValueIdx) =>
      some ⟨nextValueIdx, nextPatternIdx, state.lastMany, fun many hm =>
        (state.lastMany_le many hm).trans (nextLikePatternToken_bounds h).1.le⟩
    | none => none
  | some (.anyMany, nextPatternIdx) =>
    some ⟨state.valueIdx, nextPatternIdx, some (nextPatternIdx, state.valueIdx), by simp⟩
  | none => none

/-- The last `%` takes one more character. -/
def retry (value : String) (state : LikeState) : Option LikeState :=
  match state.lastMany with
  | some (afterManyPatternIdx, manyValueIdx) =>
    match nextCharAt value manyValueIdx with
    | some (_, nextManyValueIdx) =>
      some ⟨nextManyValueIdx, afterManyPatternIdx, some (afterManyPatternIdx, nextManyValueIdx),
        by simp⟩
    | none => none
  | none => none

/-- What the loop uses up: tokens behind the last `%`, characters it has not tried, tokens. -/
def measure (value pattern : String) (state : LikeState) : Nat × Nat × Nat :=
  (match state.lastMany with
    | some many => (asBytes pattern).length - many.1
    | none => (asBytes pattern).length + 1,
    match state.lastMany with
    | some many => (asBytes value).length - many.2
    | none => 0,
    (asBytes pattern).length - state.patternIdx)

variable {value pattern : String} {escapeChar : Option Char} {state state' : LikeState}

theorem advance_measure (h : state.advance value pattern escapeChar = some state') :
    Prod.Lex (· < ·) (Prod.Lex (· < ·) (· < ·)) (state'.measure value pattern)
      (state.measure value pattern) := by
  unfold advance at h
  split at h
  case h_3 next htoken =>
    -- A new `%` is last, with fewer tokens behind it than behind the one before.
    have hb := nextLikePatternToken_bounds htoken
    cases h
    refine .left _ _ ?_
    cases hl : state.lastMany with
    | none =>
      dsimp only
      omega
    | some many =>
      have := state.lastMany_le many hl
      dsimp only
      omega
  case h_4 => cases h
  all_goals
    rename_i htoken
    have hb := nextLikePatternToken_bounds htoken
    split at h
    · first
        | cases h
        | (split at h <;> cases h)
      refine .right _ (.right _ ?_)
      dsimp only
      omega
    · cases h

theorem retry_measure (h : state.retry value = some state') :
    Prod.Lex (· < ·) (Prod.Lex (· < ·) (· < ·)) (state'.measure value pattern)
      (state.measure value pattern) := by
  unfold retry at h
  split at h
  · rename_i after many hl
    split at h
    · rename_i ch next hc
      have hb := nextCharAt_bounds hc
      cases h
      simp only [measure, hl]
      refine .right _ (.left _ _ ?_)
      omega
    · cases h
  · cases h

end LikeState

/-- The tokens left at the end of the text may only be `%`. -/
def skipMany (pattern : String) (escapeChar : Option Char) (patternIdx : Nat) : Bool :=
  match _h : nextLikePatternToken pattern patternIdx escapeChar with
  | some (token, nextPatternIdx) =>
    if token ≠ .anyMany then false else skipMany pattern escapeChar nextPatternIdx
  | none => true
termination_by (asBytes pattern).length - patternIdx
decreasing_by
  have := nextLikePatternToken_bounds _h
  omega

def likeLoop (value pattern : String) (escapeChar : Option Char) (state : LikeState) : Bool :=
  if state.valueIdx < (asBytes value).length then
    match _h : state.advance value pattern escapeChar with
    | some state' => likeLoop value pattern escapeChar state'
    | none =>
      match _h : state.retry value with
      | some state' => likeLoop value pattern escapeChar state'
      | none => false
  else
    skipMany pattern escapeChar state.patternIdx
termination_by state.measure value pattern
decreasing_by
  · exact LikeState.advance_measure _h
  · exact LikeState.retry_measure _h

def stringLike (value pattern : String) (escapeChar : Option Char) : Bool :=
  likeLoop value pattern escapeChar ⟨0, 0, none, by simp⟩

end KiteSQL
