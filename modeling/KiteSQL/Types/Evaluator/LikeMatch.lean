import KiteSQL.Types.Evaluator.Like

/-! `LIKE` decides which texts a pattern stands for. -/
namespace KiteSQL

open Wildcard Option List

/-- What a character stands for that is not escaped. -/
def likeToken (ch : Char) : Token Char :=
  if ch = '%' then .anyMany else if ch = '_' then .anyOne else .literal ch

/-- The tokens that a pattern is read as. -/
def likeTokens (escapeChar : Option Char) : List Char → List (Token Char)
  | [] => []
  | [ch] => if escapeChar = some ch then [.literal ch] else [likeToken ch]
  | ch :: next :: rest =>
    if escapeChar = some ch then .literal next :: likeTokens escapeChar rest
    else likeToken ch :: likeTokens escapeChar (next :: rest)

/-- The texts that a pattern stands for. An escape character at the end stands for itself. -/
inductive LikeMatches (escapeChar : Option Char) : List Char → List Char → Prop
  | nil : LikeMatches escapeChar [] []
  | escaped {escape ch : Char} {pattern value : List Char} : escapeChar = some escape →
      LikeMatches escapeChar pattern value →
      LikeMatches escapeChar (escape :: ch :: pattern) (ch :: value)
  | escape {escape : Char} : escapeChar = some escape → LikeMatches escapeChar [escape] [escape]
  | anyMany {pattern rest : List Char} (value : List Char) : escapeChar ≠ some '%' →
      LikeMatches escapeChar pattern rest →
      LikeMatches escapeChar ('%' :: pattern) (value ++ rest)
  | anyOne {ch : Char} {pattern value : List Char} : escapeChar ≠ some '_' →
      LikeMatches escapeChar pattern value →
      LikeMatches escapeChar ('_' :: pattern) (ch :: value)
  | literal {ch : Char} {pattern value : List Char} : escapeChar ≠ some ch → ch ≠ '%' → ch ≠ '_' →
      LikeMatches escapeChar pattern value →
      LikeMatches escapeChar (ch :: pattern) (ch :: value)

variable {escapeChar : Option Char} {value pattern : List Char} {index : Nat}
  {tokens : List (Token Char)} {ch : Char}

theorem likeTokens_cons (h : escapeChar ≠ some ch) (rest : List Char) :
    likeTokens escapeChar (ch :: rest) = likeToken ch :: likeTokens escapeChar rest := by
  cases rest with
  | nil => simp [likeTokens, h]
  | cons next rest => rw [likeTokens, if_neg h]

theorem likeMatches_of_token (h : escapeChar ≠ some ch)
    (ih : ∀ value, Matches (likeTokens escapeChar pattern) value →
      LikeMatches escapeChar pattern value)
    (hm : Matches (likeToken ch :: likeTokens escapeChar pattern) value) :
    LikeMatches escapeChar (ch :: pattern) value := by
  rw [likeToken] at hm
  split_ifs at hm with hmany hone
  · subst hmany
    obtain ⟨w, ⟨u, rfl⟩, hw⟩ := matches_anyMany_iff.mp hm
    exact .anyMany u h (ih w hw)
  · subst hone
    cases hm with
    | anyOne hm => exact .anyOne h (ih _ hm)
  · cases hm with
    | literal hm => exact .literal h hmany hone (ih _ hm)

theorem matches_likeTokens_iff :
    Matches (likeTokens escapeChar pattern) value ↔ LikeMatches escapeChar pattern value := by
  constructor
  · intro h
    fun_induction likeTokens escapeChar pattern generalizing value with
    | case1 =>
      cases h
      exact .nil
    | case2 ch he =>
      cases h with
      | literal h =>
        cases h
        exact .escape he
    | case3 ch he =>
      refine likeMatches_of_token he (fun value hv => ?_) h
      cases hv
      exact .nil
    | case4 ch next rest he ih =>
      cases h with
      | literal h => exact .escaped he (ih h)
    | case5 ch next rest he ih => exact likeMatches_of_token he (fun _ => ih) h
  · intro h
    induction h with
    | nil => exact .nil
    | escaped he _ ih =>
      rw [likeTokens, if_pos he]
      exact .literal ih
    | escape he =>
      rw [likeTokens, if_pos he]
      exact .literal .nil
    | anyMany u he _ ih =>
      rw [likeTokens_cons he]
      exact .anyMany u ih
    | anyOne he _ ih =>
      rw [likeTokens_cons he]
      exact .anyOne ih
    | literal he hmany hone _ ih =>
      rw [likeTokens_cons he, likeToken, if_neg hmany, if_neg hone]
      exact .literal ih

/-- A position in the pattern and the tokens behind it. -/
def TokensFrom (pattern : String) (escapeChar : Option Char) (index : Nat)
    (tokens : List (Token Char)) : Prop :=
  ∃ rest, getFrom pattern.toList index = some rest ∧ likeTokens escapeChar rest = tokens

theorem TokensFrom.next_nil {pattern : String} (h : TokensFrom pattern escapeChar index []) :
    nextLikePatternToken pattern index escapeChar = none := by
  obtain ⟨rest, hg, ht⟩ := h
  fun_cases likeTokens escapeChar rest with
  | case1 =>
    rw [nextLikePatternToken, nextCharAt_nil hg]
    rfl
  | _ => simp_all [likeTokens]

theorem TokensFrom.next_cons {pattern : String} {token : Token Char}
    (h : TokensFrom pattern escapeChar index (token :: tokens)) :
    ∃ next, nextLikePatternToken pattern index escapeChar = some (token, next) ∧
      TokensFrom pattern escapeChar next tokens := by
  obtain ⟨rest, hg, ht⟩ := h
  have hread : ∀ ch rest, escapeChar ≠ some ch → getFrom pattern.toList index = some (ch :: rest) →
      nextLikePatternToken pattern index escapeChar =
        some (likeToken ch, index + ch.utf8Size) := by
    intro ch rest he hg
    rw [nextLikePatternToken, nextCharAt_cons hg, likeToken]
    simp only [bind_eq_bind, bind_some, if_neg he]
    split_ifs <;> rfl
  fun_cases likeTokens escapeChar rest with
  | case1 => cases ht
  | case2 ch he =>
    rw [likeTokens, if_pos he] at ht
    cases ht
    refine ⟨index + ch.utf8Size, ?_, [], getFrom_next hg, rfl⟩
    rw [nextLikePatternToken, nextCharAt_cons hg]
    simp only [bind_eq_bind, bind_some, if_pos he, nextCharAt_nil (getFrom_next hg)]
    rfl
  | case3 ch he =>
    rw [likeTokens, if_neg he] at ht
    cases ht
    exact ⟨_, hread ch [] he hg, [], getFrom_next hg, rfl⟩
  | case4 ch escaped rest he =>
    rw [likeTokens, if_pos he] at ht
    cases ht
    have hg' := getFrom_next hg
    refine ⟨_, ?_, rest, getFrom_next hg', rfl⟩
    rw [nextLikePatternToken, nextCharAt_cons hg]
    simp only [bind_eq_bind, bind_some, if_pos he, nextCharAt_cons hg']
    rfl
  | case5 ch next rest he =>
    rw [likeTokens, if_neg he] at ht
    cases ht
    exact ⟨_, hread ch _ he hg, next :: rest, getFrom_next hg, rfl⟩

namespace LikeState

variable {value pattern : String} {chars : List Char}
  {last : Option (List (Token Char) × List Char)} {state : LikeState}

/-- The tokens and characters that the positions of the matcher leave. -/
structure Leaves (value pattern : String) (escapeChar : Option Char) (state : LikeState)
    (p : List (Token Char)) (v : List Char) (last : Option (List (Token Char) × List Char)) :
    Prop where
  chars : getFrom value.toList state.valueIdx = some v
  tokens : TokensFrom pattern escapeChar state.patternIdx p
  lastMany : Option.Rel (fun many left => TokensFrom pattern escapeChar many.1 left.1 ∧
    getFrom value.toList many.2 = some left.2) state.lastMany last
  behind : Behind last p v

/-- A token that stands for the next character takes it. -/
theorem Leaves.advance_one {token : Token Char} (hfit : token = .anyOne ∨ token = .literal ch)
    (h : Leaves value pattern escapeChar state (token :: tokens) (ch :: chars) last) :
    ∃ state', state.advance value pattern escapeChar = some state' ∧
      Leaves value pattern escapeChar state' tokens chars last := by
  obtain ⟨next, hn, ht⟩ := h.tokens.next_cons
  have hc := nextCharAt_cons h.chars
  refine ⟨⟨state.valueIdx + ch.utf8Size, next, state.lastMany, fun many hm =>
    (state.lastMany_le many hm).trans (nextLikePatternToken_bounds hn).1.le⟩, ?_,
    getFrom_next h.chars, ht, h.lastMany, h.behind.next (by rcases hfit with rfl | rfl <;> simp)⟩
  unfold advance
  rcases hfit with rfl | rfl
  all_goals
    split <;> rename_i heq <;> rw [hn] at heq <;> cases heq
    simp only [hc, if_pos]

theorem Leaves.advance_anyMany
    (h : Leaves value pattern escapeChar state (.anyMany :: tokens) chars last) :
    ∃ state', state.advance value pattern escapeChar = some state' ∧
      Leaves value pattern escapeChar state' tokens chars (some (tokens, chars)) := by
  obtain ⟨next, hn, ht⟩ := h.tokens.next_cons
  refine ⟨⟨state.valueIdx, next, some (next, state.valueIdx), by simp⟩, ?_, h.chars, ht,
    .some ⟨ht, h.chars⟩, behind_self⟩
  unfold advance
  split
  case h_3 heq =>
    rw [hn] at heq
    cases heq
    rfl
  all_goals
    rename_i heq
    rw [hn] at heq
    cases heq

section Advance

variable (h : Leaves value pattern escapeChar state tokens (ch :: chars) last)
include h

/-- A token that the next character does not fit, or no token at all. -/
theorem Leaves.advance_none
    (ht : ∀ rest, tokens = .anyOne :: rest ∨ tokens = .anyMany :: rest ∨
      tokens = .literal ch :: rest → False) : state.advance value pattern escapeChar = none := by
  unfold advance
  have hc := nextCharAt_cons h.chars
  cases tokens with
  | nil =>
    have hn := h.tokens.next_nil
    split <;> simp_all
  | cons token tokens =>
    obtain ⟨next, hn, -⟩ := h.tokens.next_cons
    cases token with
    | anyOne => exact (ht tokens (.inl rfl)).elim
    | anyMany => exact (ht tokens (.inr (.inl rfl))).elim
    | literal other =>
      have hne : ch ≠ other := by
        rintro rfl
        exact ht tokens (.inr (.inr rfl))
      split
      case h_1 heq =>
        rw [hn] at heq
        cases heq
        simp only [hc, if_neg hne]
      all_goals simp_all

/-- A step asks the same question of what is left. -/
theorem Leaves.advance_keeps {state' : LikeState}
    (hadv : state.advance value pattern escapeChar = some state') :
    ∃ p v last', Leaves value pattern escapeChar state' p v last' ∧
      (Matches tokens (ch :: chars) ∨ Retries last ↔ Matches p v ∨ Retries last') := by
  have keep : ∀ {p v last'}, (∃ state', state.advance value pattern escapeChar = some state' ∧
      Leaves value pattern escapeChar state' p v last') →
      Leaves value pattern escapeChar state' p v last' := by
    rintro p v last' ⟨s, hs, hl⟩
    rw [hadv] at hs
    cases hs
    exact hl
  cases tokens with
  | nil =>
    rw [h.advance_none (by simp)] at hadv
    cases hadv
  | cons token tokens =>
    cases token with
    | anyOne => exact ⟨_, _, _, keep (h.advance_one (.inl rfl)), by rw [matches_anyOne_iff]⟩
    | anyMany =>
      refine ⟨_, _, _, keep h.advance_anyMany, ?_⟩
      rw [← matches_anyMany_iff_retries, or_iff_left_of_imp h.behind.matches_of_retries]
    | literal other =>
      by_cases he : other = ch
      · subst he
        exact ⟨_, _, _, keep (h.advance_one (.inr rfl)), by rw [matches_literal_iff]; simp⟩
      · rw [h.advance_none (by simp [he])] at hadv
        cases hadv

theorem Leaves.not_matches_of_advance_none (hadv : state.advance value pattern escapeChar = none) :
    ¬ Matches tokens (ch :: chars) := by
  intro hm
  have stuck : ∀ {p v last'}, ¬ ∃ state', state.advance value pattern escapeChar = some state' ∧
      Leaves value pattern escapeChar state' p v last' := by
    rintro p v last' ⟨s, hs, -⟩
    rw [hadv] at hs
    cases hs
  cases tokens with
  | nil => exact not_matches_nil_cons hm
  | cons token tokens =>
    cases token with
    | anyOne => exact stuck (h.advance_one (.inl rfl))
    | anyMany => exact stuck h.advance_anyMany
    | literal other =>
      obtain ⟨rfl, -⟩ := matches_literal_iff.mp hm
      exact stuck (h.advance_one (.inr rfl))

end Advance

/-- The last `%` takes one more character, of which there is one. -/
theorem Leaves.retry_some {many : List (Token Char)} {left : List Char}
    (h : Leaves value pattern escapeChar state tokens (ch :: chars) (some (many, left))) :
    ∃ first rest state', left = first :: rest ∧ state.retry value = some state' ∧
      Leaves value pattern escapeChar state' many rest (some (many, rest)) := by
  obtain ⟨seg, taken, -, hleft, -, -⟩ := h.behind many left rfl
  obtain ⟨first, rest, rfl⟩ := exists_cons_of_ne_nil (l := left) (by simp [hleft])
  have hrel := h.lastMany
  cases hl : state.lastMany with
  | none =>
    rw [hl] at hrel
    cases hrel
  | some positions =>
    rw [hl] at hrel
    obtain ⟨ht, hg⟩ := rel_some_some.mp hrel
    refine ⟨first, rest, ⟨positions.2 + first.utf8Size, positions.1,
      some (positions.1, positions.2 + first.utf8Size), by simp⟩, rfl, ?_, getFrom_next hg, ht,
      .some ⟨ht, getFrom_next hg⟩, behind_self⟩
    unfold retry
    rw [hl]
    simp only [nextCharAt_cons hg]

theorem Leaves.retry_none (h : Leaves value pattern escapeChar state tokens chars none) :
    state.retry value = none := by
  have hrel := h.lastMany
  cases hl : state.lastMany with
  | none => simp [retry, hl]
  | some many =>
    rw [hl] at hrel
    cases hrel

end LikeState

theorem skipMany_iff {pattern : String} (h : TokensFrom pattern escapeChar index tokens) :
    skipMany pattern escapeChar index = true ↔ Matches tokens [] := by
  induction tokens generalizing index with
  | nil =>
    rw [skipMany]
    have hn := h.next_nil
    split <;> simp_all [Matches.nil]
  | cons token tokens ih =>
    obtain ⟨next, hn, ht⟩ := h.next_cons
    rw [skipMany]
    split
    · rename_i heq
      rw [hn] at heq
      cases heq
      rw [matches_nil_iff, forall_mem_cons, ← matches_nil_iff, ← ih ht]
      split <;> simp_all
    · simp_all

open LikeState in
/-- From any position the loop finds out whether the rest matches, or a retry does. -/
theorem likeLoop_iff {value pattern : String} {state : LikeState} {chars : List Char}
    {last : Option (List (Token Char) × List Char)}
    (h : Leaves value pattern escapeChar state tokens chars last) :
    likeLoop value pattern escapeChar state = true ↔ Matches tokens chars ∨ Retries last := by
  fun_induction likeLoop value pattern escapeChar state generalizing tokens chars last with
  | case1 state hlt state' hadv ih =>
    obtain ⟨ch, chars, rfl⟩ := exists_cons_of_ne_nil ((lt_length_iff h.chars).mp hlt)
    obtain ⟨p, v, last', h', hiff⟩ := h.advance_keeps hadv
    rw [hiff, ih h']
  | case2 state hlt hadv state' hretry ih =>
    obtain ⟨ch, chars, rfl⟩ := exists_cons_of_ne_nil ((lt_length_iff h.chars).mp hlt)
    rw [or_iff_right (h.not_matches_of_advance_none hadv)]
    cases last with
    | none =>
      rw [h.retry_none] at hretry
      cases hretry
    | some last =>
      obtain ⟨first, rest, s, hleft, hs, h'⟩ := h.retry_some
      rw [hretry] at hs
      cases hs
      rw [ih h', ← retries_cons, ← hleft]
  | case3 state hlt hadv hretry =>
    obtain ⟨ch, chars, rfl⟩ := exists_cons_of_ne_nil ((lt_length_iff h.chars).mp hlt)
    rw [or_iff_right (h.not_matches_of_advance_none hadv)]
    cases last with
    | none => simp [not_retries_none]
    | some last =>
      obtain ⟨first, rest, s, -, hs, -⟩ := h.retry_some
      rw [hretry] at hs
      cases hs
  | case4 state hlt =>
    have hnil : chars = [] := not_ne_iff.mp (mt (lt_length_iff h.chars).mpr hlt)
    subst hnil
    rw [skipMany_iff h.tokens, or_iff_left h.behind.not_retries]

/-- `LIKE` holds exactly for the texts that the pattern stands for. -/
theorem stringLike_iff (value pattern : String) (escapeChar : Option Char) :
    stringLike value pattern escapeChar = true ↔
      LikeMatches escapeChar pattern.toList value.toList := by
  rw [← matches_likeTokens_iff, stringLike, likeLoop_iff
    ⟨getFrom_zero, ⟨pattern.toList, getFrom_zero, rfl⟩, .none, behind_none⟩]
  simp [not_retries_none]

end KiteSQL
