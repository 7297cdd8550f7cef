import KiteSQL.Execution.HashJoinRows
import KiteSQL.Execution.NestedLoopJoin

/-! The rows that a nested loop join returns. -/
namespace KiteSQL

open Iterate List HashJoin Result Join NestedLoop DataValue
open JoinType RowBitmap Traverse EqualCondition

namespace NestedLoop

variable {loop : NestedLoop} {positions : Nat → Nat} {l r : Tuple} {lefts rights rows : List Tuple}
  {rightBitmap : Option RowBitmap}

/-- Whether two rows match, as the executor tests it. -/
def tests (loop : NestedLoop) (positions : Nat → Nat) (l r : Tuple) : Result Bool := do
  if ← loop.eqCond.equals positions l r then
    passes positions loop.filter (loop.sides l r).1.values (loop.sides l r).2.values
  else return false

def hits (loop : NestedLoop) (positions : Nat → Nat) (l r : Tuple) : Bool :=
  Traverse.holds (loop.tests positions l r)

theorem joinPair_eq (h : ∃ b, loop.tests positions l r = .ok b) :
    loop.joinPair positions l r = .ok (if loop.hits positions l r then
      (loop.pairRow l r true, true) else (none, false)) := by
  obtain ⟨b, hb⟩ := h
  have hhits : loop.hits positions l r = b := by rw [hits, hb, holds]
  rw [hhits]
  rw [tests] at hb
  obtain ⟨equal, hequal, hb⟩ := bind_eq_ok.mp hb
  rw [joinPair, hequal, ok_bind]
  cases equal with
  | false =>
    cases hb
    cases loop.filter <;> rfl
  | true =>
    rw [if_pos rfl] at hb
    cases hf : loop.filter with
    | none =>
      rw [hf] at hb
      cases hb
      rfl
    | some filter =>
      rw [hf] at hb
      dsimp only
      have hkeeps : filter.keeps positions ((loop.sides l r).1.values ++
        (loop.sides l r).2.values) = .ok b := hb
      rw [hkeeps, ok_bind]
      cases b <;> rfl

/-- Whether a left row that matches nothing is kept. -/
def keeps (loop : NestedLoop) : Bool :=
  match loop.ty with
  | .leftOuter | .rightOuter | .full => true
  | .inner | .cross => false

/-- The row of a left row that matches nothing. -/
def loneRow (loop : NestedLoop) (l : Tuple) : Option Tuple :=
  loop.pairRow l ⟨none, List.replicate loop.eqCond.rightLen .null⟩ false

/-- What is left to return for a left row, given the right rows that are left and whether one
matched before. -/
def leftRows (loop : NestedLoop) (positions : Nat → Nat) (l : Tuple) (matched : Bool)
    (rights : List Tuple) : List Tuple :=
  (rights.filter (loop.hits positions l)).filterMap (loop.pairRow l · true) ++
    if loop.keeps && !(matched || rights.any (loop.hits positions l)) then (loop.loneRow l).toList
    else []

/-- The marks of a full join tell which right rows some left row has matched: those of the left
rows that are done, and of the current one up to the right row it has reached. -/
structure Noted (loop : NestedLoop) (positions : Nat → Nat) (rights done current : List Tuple)
    (reached : Nat) (firstMatches : List Nat) (rightBitmap : Option RowBitmap) : Prop where
  len : ∀ bits, rightBitmap = some bits → bits.len = rights.length
  firsts : ∀ j ∈ firstMatches, j < rights.length
  marks : ∀ j r, rights[j]? = some r →
    (rightBitmap.any (·.contains j) || firstMatches.contains j) =
      (done.any (loop.hits positions · r) ||
        decide (j < reached) && current.any (loop.hits positions · r))

variable {done : List Tuple} {reached : Nat} {firstMatches : List Nat} {input : List (Result Tuple)}

/-- One right row further: its mark is added if it matched. -/
theorem Noted.advance {firstMatches' : List Nat} {rightBitmap' : Option RowBitmap}
    (h : Noted loop positions rights done [l] reached firstMatches rightBitmap)
    (hr : rights[reached]? = some r)
    (hlen : ∀ bits, rightBitmap' = some bits → bits.len = rights.length)
    (hfirsts : ∀ j ∈ firstMatches', j < rights.length)
    (hmarks : ∀ j < rights.length,
      (rightBitmap'.any (·.contains j) || firstMatches'.contains j) =
      ((rightBitmap.any (·.contains j) || firstMatches.contains j) ||
      decide (j = reached) && loop.hits positions l r)) :
    Noted loop positions rights done [l] (reached + 1) firstMatches' rightBitmap' := by
  refine ⟨hlen, hfirsts, fun j r' hj => ?_⟩
  rw [hmarks j (List.getElem?_eq_some_iff.mp hj).1, h.marks j r' hj, Bool.or_assoc]
  congr 1
  rcases Nat.lt_trichotomy j reached with hlt | heq | hgt
  · simp [hlt, Nat.lt_succ_of_lt hlt, Nat.ne_of_lt hlt]
  · subst heq
    rw [hr] at hj
    cases hj
    simp
  · simp [show ¬ j < reached by omega, show ¬ j < reached + 1 by omega, Nat.ne_of_gt hgt]

theorem noteMatch_ok (hr : rights[reached]? = some r) (hh : loop.hits positions l r = true)
    (h : loop.ty = .full → Noted loop positions rights done [l] reached firstMatches rightBitmap) :
    ∃ firstMatches' rightBitmap', loop.noteMatch reached
        ⟨l, input, reached + 1, true, firstMatches⟩ rightBitmap =
        .ok (⟨l, input, reached + 1, true, firstMatches'⟩, rightBitmap') ∧
      (loop.ty = .full →
        Noted loop positions rights done [l] (reached + 1) firstMatches' rightBitmap') := by
  rw [noteMatch.eq_def]
  by_cases hty : loop.ty = .full
  · have h := h hty
    have hlt := (List.getElem?_eq_some_iff.mp hr).1
    rw [if_pos hty]
    cases rightBitmap with
    | none =>
      refine ⟨_, _, rfl, fun _ => h.advance hr h.len ?_ fun j _ => ?_⟩
      · intro j hj
        rcases mem_append.mp hj with hj | hj
        · exact h.firsts j hj
        · rwa [mem_singleton.mp hj]
      · simp [hh, contains_eq_mem, Bool.decide_or]
    | some bits =>
      have hlen := h.len bits rfl
      refine ⟨firstMatches, some (bits.mark reached), ?_, fun _ => h.advance hr ?_ h.firsts
        fun j _ => ?_⟩
      · exact bind_eq_ok.mpr ⟨_, insert_eq_mark (hlen ▸ hlt), rfl⟩
      · rintro _ ⟨⟩
        exact hlen
      · have heq : (reached == j) = decide (j = reached) := by
          rw [Bool.eq_iff_iff, beq_iff_eq, decide_eq_true_iff, eq_comm]
        simp only [Option.any_some]
        rw [contains_mark (hlen ▸ hlt), hh, Bool.and_true, Bool.or_right_comm, heq]
  · rw [if_neg hty]
    exact ⟨firstMatches, rightBitmap, rfl, fun hfull => absurd hfull hty⟩

theorem matchedBits_ok {matched : Bool}
    (h : loop.ty = .full →
      Noted loop positions rights done [l] rights.length firstMatches rightBitmap) :
    ∃ rightBitmap', loop.matchedBits ⟨l, input, rights.length, matched, firstMatches⟩ rightBitmap =
        .ok rightBitmap' ∧
      (loop.ty = .full →
        Noted loop positions rights (done ++ [l]) [] 0 [] rightBitmap') := by
  rw [matchedBits]
  by_cases hty : loop.ty = .full
  · have h := h hty
    have hlen : (rightBitmap.getD (.withCapacity rights.length)).len = rights.length := by
      cases hb : rightBitmap with
      | none => rfl
      | some bits => exact h.len bits hb
    have hfirsts : ∀ j ∈ firstMatches,
        j < (rightBitmap.getD (.withCapacity rights.length)).len := by
      rw [hlen]
      exact h.firsts
    rw [if_pos hty]
    refine ⟨some _, bind_eq_ok.mpr ⟨_, RowBitmap.foldlM_insert hfirsts, rfl⟩,
      fun _ => ⟨?_, by simp, fun j r hj => ?_⟩⟩
    · rintro _ ⟨⟩
      rw [RowBitmap.marks_len, hlen]
    · have hlt := (List.getElem?_eq_some_iff.mp hj).1
      have hmarks := h.marks j r hj
      have hbits : (rightBitmap.getD (.withCapacity rights.length)).contains j =
          rightBitmap.any (·.contains j) := by
        cases rightBitmap with
        | none => simp [RowBitmap.contains, RowBitmap.withCapacity]
        | some bits => rfl
      simp only [Option.any_some]
      rw [RowBitmap.contains_marks hfirsts, hbits, hmarks]
      simp [hlt]
  · rw [if_neg hty]
    exact ⟨rightBitmap, rfl, fun hfull => absurd hfull hty⟩

end NestedLoop

namespace NestedLoopJoin

open NestedLoop

variable {loop : NestedLoop} {positions : Nat → Nat} {l r : Tuple}
  {lefts rights rows done : List Tuple} {rightBitmap : Option RowBitmap}

/-- The executor with all rows of its inputs readable. -/
def scanning (loop : NestedLoop) (lefts rest : List Tuple) (l : Tuple) (reached : Nat)
    (matched : Bool) (firstMatches : List Nat) (rightBitmap : Option RowBitmap) :
    NestedLoopJoin :=
  ⟨loop, lefts.map .ok, .scanRight ⟨l, rest.map .ok, reached, matched, firstMatches⟩ rightBitmap⟩

def pulling (loop : NestedLoop) (lefts : List Tuple) (rightBitmap : Option RowBitmap) :
    NestedLoopJoin :=
  ⟨loop, lefts.map .ok, .pullLeft rightBitmap⟩

theorem nextTuple_pulling_cons (hr : loop.rightInput = rights.map .ok) :
    nextTuple positions (pulling loop (l :: lefts) rightBitmap) =
      nextTuple positions (scanning loop lefts rights l 0 false [] rightBitmap) := by
  change pullLeft loop positions (.ok l :: lefts.map .ok) rightBitmap = _
  rw [pullLeft, ok_bind, hr]
  rfl

variable {rest : List Tuple} {reached : Nat} {matched : Bool} {firstMatches : List Nat}
  {rightBitmap' : Option RowBitmap} {seen : List Tuple}

/-- A right row that does not match, or whose row has no columns, is passed over. -/
theorem nextTuple_scanning_skip (h : ∃ b, loop.tests positions l r = .ok b)
    (hrow : loop.hits positions l r = true → loop.pairRow l r true = none) :
    nextTuple positions (scanning loop lefts (r :: rest) l reached matched firstMatches
        rightBitmap) =
      nextTuple positions (scanning loop lefts rest l (reached + 1)
        (matched || loop.hits positions l r) firstMatches rightBitmap) := by
  change scanRight loop positions _ _ (.ok r :: rest.map .ok) _ _ = _
  rw [scanRight, ok_bind, joinPair_eq h, ok_bind]
  cases hh : loop.hits positions l r with
  | false => rfl
  | true =>
    rw [if_pos rfl, hrow hh]
    rfl

theorem nextTuple_scanning_match {row : Tuple} {next : ActiveLeftState}
    (h : ∃ b, loop.tests positions l r = .ok b) (hh : loop.hits positions l r = true)
    (hrow : loop.pairRow l r true = some row)
    (hnote : loop.noteMatch reached ⟨l, rest.map .ok, reached + 1, true, firstMatches⟩
      rightBitmap = .ok (next, rightBitmap')) :
    nextTuple positions (scanning loop lefts (r :: rest) l reached matched firstMatches
        rightBitmap) =
      .ok (some row, ⟨loop, lefts.map .ok, .scanRight next rightBitmap'⟩) := by
  change scanRight loop positions _ _ (.ok r :: rest.map .ok) _ _ = _
  rw [scanRight, ok_bind, joinPair_eq h, ok_bind, hh, if_pos rfl, hrow]
  dsimp only
  rw [Bool.or_true, hnote]
  rfl

theorem nextTuple_scanning_nil
    (hbits : loop.matchedBits ⟨l, [], reached, matched, firstMatches⟩ rightBitmap =
      .ok rightBitmap') :
    nextTuple positions (scanning loop lefts [] l reached matched firstMatches rightBitmap) =
      match loop.unmatchedLeft ⟨l, [], reached, matched, firstMatches⟩ with
      | some row => .ok (some row, pulling loop lefts rightBitmap')
      | none => nextTuple positions (pulling loop lefts rightBitmap') := by
  change scanRight loop positions _ _ [] _ _ = _
  rw [scanRight]
  change loop.matchedBits ⟨l, [], reached, matched, firstMatches⟩ rightBitmap >>= _ = _
  rw [hbits, ok_bind]
  rfl

theorem unmatchedLeft_toList {active : ActiveLeftState} :
    (loop.unmatchedLeft active).toList =
      if loop.keeps && !active.hasMatched then (loop.loneRow active.leftTuple).toList else [] := by
  cases hty : loop.ty <;> cases hm : active.hasMatched <;>
    simp [unmatchedLeft, keeps, hty, hm, loneRow]

/-- The rows of one left row come before those of the left rows after it. -/
theorem yields_scanning (hrights : rights = seen ++ rest)
    (hok : ∀ r ∈ rest, ∃ b, loop.tests positions l r = .ok b)
    (hsome : loop.ty = .full → ∀ r ∈ rest, (loop.pairRow l r true).isSome = true)
    (hn : loop.ty = .full →
      Noted loop positions rights done [l] seen.length firstMatches rightBitmap)
    (hnext : ∀ rightBitmap', (loop.ty = .full →
      Noted loop positions rights (done ++ [l]) [] 0 [] rightBitmap') →
      Yields (nextTuple positions) (pulling loop lefts rightBitmap') rows) :
    Yields (nextTuple positions)
      (scanning loop lefts rest l seen.length matched firstMatches rightBitmap)
      (loop.leftRows positions l matched rest ++ rows) := by
  induction rest generalizing seen matched firstMatches rightBitmap with
  | nil =>
    rw [append_nil] at hrights
    subst hrights
    obtain ⟨rightBitmap', hbits, hn'⟩ := @matchedBits_ok loop positions l rights rightBitmap done
      firstMatches [] matched hn
    have hcall := @nextTuple_scanning_nil loop positions l lefts rightBitmap rights.length matched
      firstMatches rightBitmap' hbits
    have hrows : loop.leftRows positions l matched [] =
        (loop.unmatchedLeft ⟨l, [], rights.length, matched, firstMatches⟩).toList := by
      rw [unmatchedLeft_toList]
      simp [leftRows]
    rw [hrows]
    cases hu : loop.unmatchedLeft ⟨l, [], rights.length, matched, firstMatches⟩ with
    | none =>
      rw [hu] at hcall
      exact (hnext _ hn').of_next_eq hcall
    | some row =>
      rw [hu] at hcall
      exact .more hcall (hnext _ hn')
  | cons r rest ih =>
    have hsplit : rights = (seen ++ [r]) ++ rest := by simp [hrights]
    have hreach : (seen ++ [r]).length = seen.length + 1 := by simp
    have hr : rights[seen.length]? = some r := by simp [hrights]
    rw [forall_mem_cons] at hok
    have hsome' : loop.ty = .full → ∀ r ∈ rest, (loop.pairRow l r true).isSome = true :=
      fun hty r hr => hsome hty r (by simp [hr])
    cases hh : loop.hits positions l r with
    | false =>
      have hrows : loop.leftRows positions l matched (r :: rest) =
          loop.leftRows positions l matched rest := by simp [leftRows, hh]
      have hskip := @nextTuple_scanning_skip loop positions l r lefts rightBitmap rest seen.length
        matched firstMatches hok.1 (by simp [hh])
      rw [hh, Bool.or_false] at hskip
      rw [hrows]
      refine .of_next_eq ?_ hskip
      rw [← hreach]
      refine ih hsplit hok.2 hsome' fun hty => ?_
      rw [hreach]
      exact (hn hty).advance hr (hn hty).len (hn hty).firsts (by simp [hh])
    | true =>
      cases hrow : loop.pairRow l r true with
      | none =>
        have hrows : loop.leftRows positions l matched (r :: rest) =
            loop.leftRows positions l true rest := by simp [leftRows, hh, hrow]
        have hskip := @nextTuple_scanning_skip loop positions l r lefts rightBitmap rest
          seen.length matched firstMatches hok.1 (fun _ => hrow)
        rw [hh, Bool.or_true] at hskip
        rw [hrows]
        refine .of_next_eq ?_ hskip
        rw [← hreach]
        refine ih hsplit hok.2 hsome' fun hty => ?_
        have := hsome hty r (by simp)
        simp [hrow] at this
      | some row =>
        have hrows : loop.leftRows positions l matched (r :: rest) =
            row :: loop.leftRows positions l true rest := by simp [leftRows, hh, hrow]
        obtain ⟨firstMatches', rightBitmap', hnote, hn'⟩ := @noteMatch_ok loop positions l r rights
          rightBitmap done seen.length firstMatches (rest.map .ok) hr hh hn
        rw [hrows]
        refine .more (nextTuple_scanning_match hok.1 hh hrow hnote) ?_
        rw [← hreach] at hn' ⊢
        exact ih hsplit hok.2 hsome' hn'

/-- The right rows that no left row matched. -/
theorem yields_emitting (hrights : rights = seen ++ rest)
    (hn : Noted loop positions rights done [] 0 [] rightBitmap) :
    Yields (nextTuple positions)
      ⟨loop, [], .emitRightUnmatched (rest.map .ok) rightBitmap seen.length⟩
      ((rest.filter fun r => !done.any (loop.hits positions · r)).map
        (fullRightRow loop.eqCond.leftLen)) := by
  induction rest generalizing seen with
  | nil => exact .done rfl
  | cons r rest ih =>
    have hsplit : rights = (seen ++ [r]) ++ rest := by simp [hrights]
    have hreach : (seen ++ [r]).length = seen.length + 1 := by simp
    have hr : rights[seen.length]? = some r := by simp [hrights]
    have hmark : isUnmatched rightBitmap seen.length = !done.any (loop.hits positions · r) := by
      have hmarks := hn.marks _ _ hr
      cases rightBitmap with
      | none => simpa [isUnmatched] using hmarks
      | some bits => simpa [isUnmatched] using hmarks
    have hcall : nextTuple positions ⟨loop, [], .emitRightUnmatched ((r :: rest).map .ok)
        rightBitmap seen.length⟩ = if !done.any (loop.hits positions · r) then
        .ok (some (fullRightRow loop.eqCond.leftLen r), ⟨loop, [],
          .emitRightUnmatched (rest.map .ok) rightBitmap (seen.length + 1)⟩)
        else nextTuple positions ⟨loop, [], .emitRightUnmatched (rest.map .ok) rightBitmap
          (seen.length + 1)⟩ := by
      change emitRightUnmatched loop rightBitmap (.ok r :: rest.map .ok) _ = _
      rw [emitRightUnmatched, ok_bind, ← hmark]
      rfl
    have hrest := ih hsplit
    rw [hreach] at hrest
    cases hd : !done.any (loop.hits positions · r) with
    | false =>
      rw [hd] at hcall
      simp only [filter_cons, hd, Bool.false_eq_true, if_false]
      exact hrest.of_next_eq hcall
    | true =>
      rw [hd] at hcall
      simp only [filter_cons, hd, if_true, map_cons]
      exact .more hcall hrest

section

variable (hr : loop.rightInput = rights.map .ok)
include hr

theorem nextTuple_pulling_nil :
    nextTuple positions (pulling loop [] rightBitmap) =
      if loop.ty = .full then
        nextTuple positions ⟨loop, [], .emitRightUnmatched (rights.map .ok) rightBitmap 0⟩
      else .ok (none, ⟨loop, [], .over⟩) := by
  change pullLeft loop positions [] rightBitmap = _
  rw [pullLeft, hr]
  rfl

/-- The rows of the left rows that are left, and then those of the right rows that no left row
matched. -/
theorem yields_pulling (hok : ∀ l ∈ lefts, ∀ r ∈ rights, ∃ b, loop.tests positions l r = .ok b)
    (hsome : loop.ty = .full → ∀ l ∈ lefts, ∀ r ∈ rights, (loop.pairRow l r true).isSome = true)
    (hn : loop.ty = .full → Noted loop positions rights done [] 0 [] rightBitmap) :
    Yields (nextTuple positions) (pulling loop lefts rightBitmap)
      (lefts.flatMap (loop.leftRows positions · false rights) ++
        if loop.ty = .full then
          (rights.filter fun r => !(done ++ lefts).any (loop.hits positions · r)).map
            (fullRightRow loop.eqCond.leftLen)
        else []) := by
  induction lefts generalizing done rightBitmap with
  | nil =>
    have hcall := @nextTuple_pulling_nil loop positions rights rightBitmap hr
    by_cases hty : loop.ty = .full
    · rw [if_pos hty] at hcall ⊢
      rw [append_nil]
      exact (yields_emitting (nil_append rights).symm (hn hty)).of_next_eq hcall
    · rw [if_neg hty] at hcall ⊢
      exact .done hcall
  | cons l lefts ih =>
    rw [forall_mem_cons] at hok
    have happend : done ++ l :: lefts = (done ++ [l]) ++ lefts := by simp
    rw [flatMap_cons, append_assoc, happend]
    refine .of_next_eq ?_ (nextTuple_pulling_cons hr)
    refine @yields_scanning loop positions l lefts rights _ done rightBitmap rights false [] []
      rfl hok.1 (fun hty => hsome hty l (by simp)) (fun hty => ?_) fun rightBitmap' hn' => ?_
    · refine ⟨(hn hty).len, by simp, fun j r hj => ?_⟩
      rw [(hn hty).marks j r hj]
      simp
    · exact ih hok.2 (fun hty l' hl' => hsome hty l' (by simp [hl'])) hn'

theorem yields_loop (hok : ∀ l ∈ lefts, ∀ r ∈ rights, ∃ b, loop.tests positions l r = .ok b)
    (hsome : loop.ty = .full → ∀ l ∈ lefts, ∀ r ∈ rights, (loop.pairRow l r true).isSome = true) :
    Yields (nextTuple positions) (pulling loop lefts none)
      (lefts.flatMap (loop.leftRows positions · false rights) ++
        if loop.ty = .full then
          (rights.filter fun r => !lefts.any (loop.hits positions · r)).map
            (fullRightRow loop.eqCond.leftLen)
        else []) := by
  refine @yields_pulling loop positions lefts rights [] none hr hok hsome fun _ => ?_
  exact ⟨by simp, by simp, by simp⟩

end

end NestedLoopJoin

namespace JoinOperator

variable {op : JoinOperator} {positions : Nat → Nat} {l r : Tuple}

/-- The keys of the two rows are equal, where NULL is equal to NULL. -/
def keysEqual (op : JoinOperator) (positions : Nat → Nat) (l r : Tuple) : Bool :=
  DataValue.eqList (HashJoin.keyOf positions (op.on.map Prod.fst) l)
    (HashJoin.keyOf positions (op.on.map Prod.snd) r)

/-- The pairs that a nested loop returns. -/
def loops (op : JoinOperator) (positions : Nat → Nat) (l r : Tuple) : Bool :=
  op.keysEqual positions l r && HashJoin.accepts positions op.filter l r

/-- The keys can be evaluated on every row, and the filter on every pair with equal keys. -/
structure LoopEvaluates (op : JoinOperator) (positions : Nat → Nat) (lefts rights : List Tuple) :
    Prop where
  left : ∀ l ∈ lefts, ∃ key, HashJoin.evalKeys positions (op.on.map Prod.fst) l = .ok key
  right : ∀ r ∈ rights, ∃ key, HashJoin.evalKeys positions (op.on.map Prod.snd) r = .ok key
  filter : ∀ l ∈ lefts, ∀ r ∈ rights, op.keysEqual positions l r = true →
    ∃ b, passes positions op.filter l.values r.values = .ok b

end JoinOperator

theorem EqualCondition.equalKeys_eq {positions : Nat → Nat} {l r : Tuple}
    {keys : List (PlanExpression × PlanExpression)} {ls rs : List DataValue}
    (hl : evalKeys positions (keys.map Prod.fst) l = .ok ls)
    (hr : evalKeys positions (keys.map Prod.snd) r = .ok rs) :
    equalKeys positions l r keys = .ok (eqList ls rs) := by
  induction keys generalizing ls rs with
  | nil =>
    cases hl
    cases hr
    rfl
  | cons key keys ih =>
    obtain ⟨a, as, ha, has, rfl⟩ := mapM_cons_eq_ok.mp hl
    obtain ⟨b, bs, hb, hbs, rfl⟩ := mapM_cons_eq_ok.mp hr
    rw [equalKeys, ha, ok_bind, hb, ok_bind, eqList, ih has hbs]
    cases a.eq b <;> rfl

theorem EqualCondition.equals_eq {cond : EqualCondition} {positions : Nat → Nat} {l r : Tuple} :
    cond.equals positions l r =
      equalKeys positions l r (cond.onLeftKeys.zip cond.onRightKeys) := by
  rw [equals]
  cases cond.onLeftKeys <;> rfl

theorem emitTuple_matched (l r : Tuple) (ty : JoinType) :
    emitTuple l r ty true =
      if (l.values ++ r.values).isEmpty then none else some (fullRow l r) := rfl

/-- A left row without a partner; the columns of the other side are NULL. -/
theorem emitTuple_lone (l : Tuple) (rightLen : Nat) {ty : JoinType}
    (hty : ty = .leftOuter ∨ ty = .full) :
    emitTuple l ⟨none, replicate rightLen .null⟩ ty false =
      if (l.values ++ replicate rightLen null).isEmpty then none
      else some ⟨l.pk, l.values ++ replicate rightLen .null⟩ := by
  rcases hty with rfl | rfl <;> simp [emitTuple]

theorem emitTuple_lone_right (r : Tuple) (leftLen : Nat) :
    emitTuple ⟨none, replicate leftLen .null⟩ r .rightOuter false =
      if (replicate leftLen null ++ r.values).isEmpty then none
      else some (fullRightRow leftLen r) := by
  simp [emitTuple, fullRightRow]

namespace NestedLoopJoin

open NestedLoop

variable {op : JoinOperator} {positions : Nat → Nat} {l r : Tuple} {lefts rights : List Tuple}
  {leftLen rightLen : Nat} {loop : NestedLoop} {l' r' : Tuple}

theorem tests_eq (hequals : loop.eqCond.equals positions l' r' = .ok (op.keysEqual positions l r))
    (hsides : loop.sides l' r' = (l, r)) (hfilter : loop.filter = op.filter)
    (h : op.LoopEvaluates positions lefts rights) (hl : l ∈ lefts) (hr : r ∈ rights) :
    loop.tests positions l' r' = .ok (op.loops positions l r) := by
  rw [tests, hequals, ok_bind, JoinOperator.loops, hsides, hfilter]
  cases hk : op.keysEqual positions l r with
  | false => rfl
  | true =>
    obtain ⟨b, hb⟩ := h.filter l hl r hr hk
    have haccepts : accepts positions op.filter l r = b := by
      rw [accepts, hb, holds]
    rw [if_pos rfl, Bool.true_and, haccepts]
    exact hb

/-- The loop of a join whose sides are not swapped. -/
def straight (op : JoinOperator) (leftLen rightLen : Nat) (rights : List Tuple) : NestedLoop :=
  ⟨op.joinType, op.filter, ⟨op.on.map Prod.fst, op.on.map Prod.snd, leftLen, rightLen⟩,
    rights.map .ok⟩

section

variable (hty : op.joinType ≠ .rightOuter)
include hty

theorem ofOperator_straight :
    ofOperator op leftLen rightLen (lefts.map .ok) (rights.map .ok) =
      pulling (straight op leftLen rightLen rights) lefts none :=
  if_neg hty

theorem sides_straight : (straight op leftLen rightLen rights).sides l r = (l, r) :=
  if_neg hty

theorem tests_straight (h : op.LoopEvaluates positions lefts rights) (hl : l ∈ lefts)
    (hr : r ∈ rights) :
    (straight op leftLen rightLen rights).tests positions l r =
      .ok (op.loops positions l r) := by
  refine tests_eq ?_ (sides_straight hty) rfl h hl hr
  have hzip : (op.on.map Prod.fst).zip (op.on.map Prod.snd) = op.on :=
    (zip_of_prod rfl rfl).symm
  have hl := evalKeys_keyOf (h.left l hl)
  have hr := evalKeys_keyOf (h.right r hr)
  rw [equals_eq]
  exact (congrArg _ hzip).trans (equalKeys_eq hl hr)

end

theorem any_congr {α : Type} {xs : List α} {p q : α → Bool} (h : ∀ x ∈ xs, p x = q x) :
    xs.any p = xs.any q := by
  rw [Bool.eq_iff_iff, any_eq_true, any_eq_true]
  exact exists_congr fun x => and_congr_right fun hx => by rw [h x hx]

/-- Every row has as many columns as the schema of its input. -/
structure Wide (leftLen rightLen : Nat) (lefts rights : List Tuple) : Prop where
  left : ∀ l ∈ lefts, l.values.length = leftLen
  right : ∀ r ∈ rights, r.values.length = rightLen

theorem isEmpty_row (xs ys : List DataValue) :
    (xs ++ ys).isEmpty = decide (xs.length + ys.length = 0) := by
  rw [Bool.eq_iff_iff]
  simp

theorem pairRow_eq (hsides : loop.sides l' r' = (l, r)) (hw : Wide leftLen rightLen lefts rights)
    (hl : l ∈ lefts) (hr : r ∈ rights) :
    loop.pairRow l' r' true = if leftLen + rightLen = 0 then none else some (fullRow l r) := by
  rw [pairRow, hsides, emitTuple_matched, isEmpty_row, hw.left l hl, hw.right r hr]
  simp

theorem loneRow_straight (hty : op.joinType = .leftOuter ∨ op.joinType = .full)
    (hw : Wide leftLen rightLen lefts rights) (hl : l ∈ lefts) :
    (straight op leftLen rightLen rights).loneRow l =
      if leftLen + rightLen = 0 then none
      else some (assembleTuple leftLen rightLen (some l, none)) := by
  have hne : op.joinType ≠ .rightOuter := by rcases hty with h | h <;> simp [h]
  rw [loneRow, pairRow, sides_straight hne]
  refine (emitTuple_lone l rightLen hty).trans ?_
  rw [isEmpty_row, hw.left l hl]
  simp [assembleTuple]

theorem keeps_straight (hty : op.joinType ≠ .rightOuter) :
    (straight op leftLen rightLen rights).keeps = op.joinType.keepsLeft := by
  cases h : op.joinType <;> simp_all [keeps, straight, keepsLeft]

/-- What a loop makes of its rows; a join without columns returns none. -/
structure Makes (loop : NestedLoop) (positions : Nat → Nat) (outer inner : List Tuple) (width : Nat)
    (matching : Tuple → Tuple → Bool) (pair : Tuple → Tuple → Tuple) (lone : Tuple → Tuple) :
    Prop where
  input : loop.rightInput = inner.map .ok
  tests : ∀ l ∈ outer, ∀ r ∈ inner, loop.tests positions l r = .ok (matching l r)
  pair : ∀ l ∈ outer, ∀ r ∈ inner,
    loop.pairRow l r true = if width = 0 then none else some (pair l r)
  lone : ∀ l ∈ outer, loop.keeps = true →
    loop.loneRow l = if width = 0 then none else some (lone l)

section Makes

variable {outer inner : List Tuple} {width : Nat} {matching : Tuple → Tuple → Bool}
  {pair : Tuple → Tuple → Tuple} {lone : Tuple → Tuple}

section

variable (h : Makes loop positions outer inner width matching pair lone)
include h

theorem Makes.hits (hl : l ∈ outer) (hr : r ∈ inner) : loop.hits positions l r = matching l r := by
  rw [NestedLoop.hits, h.tests l hl r hr, Traverse.holds]

theorem Makes.leftRows (hl : l ∈ outer) :
    loop.leftRows positions l false inner = if width = 0 then [] else
      (inner.filter (matching l)).map (pair l) ++
        if loop.keeps && !inner.any (matching l) then [lone l] else [] := by
  have hhits : ∀ r ∈ inner, loop.hits positions l r = matching l r := fun r hr => h.hits hl hr
  have hpairs : (inner.filter (matching l)).filterMap (loop.pairRow l · true) =
      (inner.filter (matching l)).filterMap fun r =>
        if width = 0 then none else some (pair l r) :=
    filterMap_congr fun r hr => h.pair l hl r (mem_of_mem_filter hr)
  rw [NestedLoop.leftRows, filter_congr hhits, any_congr hhits, Bool.false_or, hpairs]
  by_cases hzero : width = 0
  · cases hk : loop.keeps with
    | false => simp [hzero]
    | true => simp [hzero, h.lone l hl hk]
  · simp only [hzero, if_false]
    refine congrArg₂ (· ++ ·) (congrFun filterMap_eq_map _) ?_
    cases hk : loop.keeps with
    | false => rfl
    | true =>
      rw [h.lone l hl hk, if_neg hzero]
      rfl

theorem Makes.yields (hfull : loop.ty = .full → 0 < width) :
    Yields (nextTuple positions) (pulling loop outer none) (if width = 0 then [] else
      (outer.flatMap fun l => (inner.filter (matching l)).map (pair l) ++
        if loop.keeps && !inner.any (matching l) then [lone l] else []) ++
      if loop.ty = .full then (inner.filter fun r => !outer.any (matching · r)).map
        (fullRightRow loop.eqCond.leftLen) else []) := by
  have hloop := yields_loop h.input (fun l hl r hr => ⟨_, h.tests l hl r hr⟩) fun hf l hl r hr => by
    rw [h.pair l hl r hr, if_neg (Nat.ne_of_gt (hfull hf))]
    rfl
  have hright : (inner.filter fun r => !outer.any (loop.hits positions · r)) =
      inner.filter fun r => !outer.any (matching · r) := by
    refine filter_congr fun r hr => ?_
    rw [any_congr fun l hl => h.hits hl hr]
  rw [flatMap_congr fun l hl => h.leftRows hl, hright] at hloop
  by_cases hzero : width = 0
  · have hnot : loop.ty ≠ .full := fun hf => Nat.ne_of_gt (hfull hf) hzero
    simp only [hzero, if_true, hnot, if_false, append_nil] at hloop ⊢
    rwa [show (outer.flatMap fun _ => ([] : List Tuple)) = [] by simp] at hloop
  · simpa only [hzero, if_false] using hloop

end

end Makes

theorem map_byLeft (keepLeft : Bool) (p : Tuple → Tuple → Bool) :
    (byLeft keepLeft p lefts rights).map (assembleTuple leftLen rightLen) =
      lefts.flatMap fun l => (rights.filter (p l)).map (fullRow l) ++
        if keepLeft && !rights.any (p l) then
          [assembleTuple leftLen rightLen (some l, none)] else [] := by
  rw [byLeft, map_flatMap]
  refine flatMap_congr fun l _ => ?_
  rw [map_append, map_map]
  cases keepLeft && !rights.any (p l) <;> rfl

/-- The rows of a nested loop join whose sides are not swapped; without columns there are none. -/
theorem yields_straight (hty : op.joinType ≠ .rightOuter)
    (h : op.LoopEvaluates positions lefts rights) (hw : Wide leftLen rightLen lefts rights)
    (hfull : op.joinType = .full → 0 < leftLen + rightLen) :
    Yields (nextTuple positions)
      (ofOperator op leftLen rightLen (lefts.map .ok) (rights.map .ok))
      (if leftLen + rightLen = 0 then [] else
        (byLeft op.joinType.keepsLeft (op.loops positions) lefts rights ++
          if op.joinType = .full then loneRight (op.loops positions) lefts rights
          else []).map (assembleTuple leftLen rightLen)) := by
  have hmakes : Makes (straight op leftLen rightLen rights) positions lefts rights
      (leftLen + rightLen) (op.loops positions) fullRow
      fun l => assembleTuple leftLen rightLen (some l, none) := by
    refine ⟨rfl, fun l hl r hr => tests_straight hty h hl hr,
      fun l hl r hr => pairRow_eq (sides_straight hty) hw hl hr,
      fun l hl hk => loneRow_straight ?_ hw hl⟩
    rw [keeps_straight hty] at hk
    cases h : op.joinType <;> simp_all [keepsLeft]
  have hyields := hmakes.yields hfull
  rw [keeps_straight hty] at hyields
  rw [ofOperator_straight hty, map_append, map_byLeft, apply_ite (map _)]
  have hlone : (loneRight (op.loops positions) lefts rights).map
      (assembleTuple leftLen rightLen) =
      (rights.filter fun r => !lefts.any (op.loops positions · r)).map
        (fullRightRow leftLen) := map_map
  rw [hlone]
  exact hyields

/-- The loop of a right outer join, whose sides are swapped. -/
def swapped (op : JoinOperator) (leftLen rightLen : Nat) (lefts : List Tuple) : NestedLoop :=
  ⟨op.joinType, op.filter, ⟨op.on.map Prod.snd, op.on.map Prod.fst, rightLen, leftLen⟩,
    lefts.map .ok⟩

section Swapped

variable (hty : op.joinType = .rightOuter)
include hty

theorem ofOperator_swapped :
    ofOperator op leftLen rightLen (lefts.map .ok) (rights.map .ok) =
      pulling (swapped op leftLen rightLen lefts) rights none :=
  if_pos hty

theorem sides_swapped : (swapped op leftLen rightLen lefts).sides r l = (l, r) :=
  if_pos hty

theorem tests_swapped (h : op.LoopEvaluates positions lefts rights) (hl : l ∈ lefts)
    (hr : r ∈ rights) :
    (swapped op leftLen rightLen lefts).tests positions r l =
      .ok (op.loops positions l r) := by
  refine tests_eq ?_ (sides_swapped hty) rfl h hl hr
  have hzip : (op.on.map Prod.snd).zip (op.on.map Prod.fst) = op.on.map Prod.swap :=
    (zip_of_prod (by simp [Function.comp_def]) (by simp [Function.comp_def])).symm
  have hl := evalKeys_keyOf (h.left l hl)
  have hr := evalKeys_keyOf (h.right r hr)
  have hequal := @EqualCondition.equalKeys_eq positions r l (op.on.map Prod.swap) _ _
    (by simpa [Function.comp_def] using hr) (by simpa [Function.comp_def] using hl)
  rw [equals_eq]
  refine (congrArg _ hzip).trans (hequal.trans (congrArg _ ?_))
  exact listTest.symm _ _

theorem loneRow_swapped (hw : Wide leftLen rightLen lefts rights) (hr : r ∈ rights) :
    (swapped op leftLen rightLen lefts).loneRow r =
      if leftLen + rightLen = 0 then none else some (fullRightRow leftLen r) := by
  have hty' : (swapped op leftLen rightLen lefts).ty = .rightOuter := hty
  rw [loneRow, pairRow, sides_swapped hty, hty']
  refine (emitTuple_lone_right r leftLen).trans ?_
  rw [isEmpty_row, hw.right r hr]
  simp

theorem yields_swapped (h : op.LoopEvaluates positions lefts rights)
    (hw : Wide leftLen rightLen lefts rights) :
    Yields (nextTuple positions)
      (ofOperator op leftLen rightLen (lefts.map .ok) (rights.map .ok))
      (if leftLen + rightLen = 0 then [] else
        (byRight true (op.loops positions) lefts rights).map
          (assembleTuple leftLen rightLen)) := by
  have hmakes : Makes (swapped op leftLen rightLen lefts) positions rights lefts
      (leftLen + rightLen) (fun r l => op.loops positions l r) (fun r l => fullRow l r)
      (fullRightRow leftLen) :=
    ⟨rfl, fun r hr l hl => tests_swapped hty h hl hr,
      fun r hr l hl => pairRow_eq (sides_swapped hty) hw hl hr, fun r hr _ => loneRow_swapped hty hw hr⟩
  have hnot : (swapped op leftLen rightLen lefts).ty ≠ .full := by
    change op.joinType ≠ .full
    simp [hty]
  have hkeeps : (swapped op leftLen rightLen lefts).keeps = true := by
    simp [keeps, swapped, hty]
  have hyields := hmakes.yields fun hf => absurd hf hnot
  rw [hkeeps, if_neg hnot, append_nil] at hyields
  rw [ofOperator_swapped hty, map_byRight]
  simpa using hyields

end Swapped

/-- A nested loop join returns the pairs with equal keys, where NULL is equal to NULL, on which the
filter is true, and the rows without such a partner that it is to keep. -/
theorem yields_loops (h : op.LoopEvaluates positions lefts rights)
    (hw : Wide leftLen rightLen lefts rights) (hpos : 0 < leftLen + rightLen) :
    ∃ rows, Yields (nextTuple positions)
        (ofOperator op leftLen rightLen (lefts.map .ok) (rights.map .ok)) rows ∧
      rows.Perm ((join op.joinType.keepsLeft op.joinType.keepsRight (op.loops positions)
        lefts rights).map (assembleTuple leftLen rightLen)) := by
  have hne : leftLen + rightLen ≠ 0 := Nat.ne_of_gt hpos
  by_cases hty : op.joinType = .rightOuter
  · refine ⟨_, yields_swapped hty h hw, ?_⟩
    rw [if_neg hne, hty]
    exact (byRight_perm true).map _
  · refine ⟨_, yields_straight hty h hw fun _ => hpos, ?_⟩
    rw [if_neg hne]
    refine Perm.map _ (((byLeft_perm _).append_right _).trans (.of_eq ?_))
    cases hj : op.joinType with
    | rightOuter => exact absurd hj hty
    | inner => simp [join, keepsLeft, keepsRight]
    | leftOuter => simp [join, keepsLeft, keepsRight]
    | cross => simp [join, keepsLeft, keepsRight]
    | full => simp [join, keepsLeft, keepsRight]

/-- Without equality keys a nested loop join returns exactly the rows of the join. -/
theorem noKeys_returns_join (hkeys : op.on = [])
    (hfilter : ∀ l ∈ lefts, ∀ r ∈ rights,
      ∃ b, passes positions op.filter l.values r.values = .ok b)
    (hw : Wide leftLen rightLen lefts rights) (hpos : 0 < leftLen + rightLen) :
    ∃ rows, Yields (nextTuple positions)
        (ofOperator op leftLen rightLen (lefts.map .ok) (rights.map .ok)) rows ∧
      rows.Perm ((Join.join op.joinType.keepsLeft op.joinType.keepsRight
        (HashJoin.accepts positions op.filter) lefts rights).map
        (HashJoin.assembleTuple leftLen rightLen)) := by
  have heval : op.LoopEvaluates positions lefts rights := by
    refine ⟨fun l _ => ⟨[], by rw [hkeys]; rfl⟩, fun r _ => ⟨[], by rw [hkeys]; rfl⟩,
      fun l hl r hr _ => hfilter l hl r hr⟩
  have hloops : ∀ l r, op.loops positions l r = accepts positions op.filter l r := by
    intro l r
    have hequal : op.keysEqual positions l r = true := by
      rw [JoinOperator.keysEqual, hkeys]
      rfl
    rw [JoinOperator.loops, hequal, Bool.true_and]
  rw [← join_congr _ _ fun l _ r _ => hloops l r]
  exact yields_loops heval hw hpos

/-- A full join in which one row of each side has no partner. -/
theorem noKeys_returns_join_full :
    ∃ rows, Yields (nextTuple id) (ofOperator ⟨.full, [], some (.other [⟨0, 0⟩, ⟨1, 1⟩] fun
        | [.int32 1, .int32 1] => .ok (.boolean true)
        | _ => .ok .null), false⟩ 1 1
        [.ok ⟨none, [.int32 1]⟩, .ok ⟨none, [.int32 2]⟩]
        [.ok ⟨none, [.null]⟩, .ok ⟨none, [.int32 1]⟩]) rows ∧
      rows.Perm [⟨none, [.int32 1, .int32 1]⟩, ⟨none, [.int32 2, .null]⟩,
        ⟨none, [.null, .null]⟩] := by
  refine @noKeys_returns_join ⟨.full, [], _, false⟩ id [⟨none, [.int32 1]⟩, ⟨none, [.int32 2]⟩]
    [⟨none, [.null]⟩, ⟨none, [.int32 1]⟩] 1 1 rfl ?_ ⟨by simp, by simp⟩ (by simp)
  intro l hl r hr
  fin_cases hl <;> fin_cases hr <;> exact ⟨_, rfl⟩

end NestedLoopJoin

end KiteSQL
