import KiteSQL.Execution.HashJoinRows

/-! When a left or full outer hash join returns the rows of the join and no others. -/
namespace KiteSQL

open Iterate

namespace HashJoin

variable {op : JoinOperator} {arena : JoinArena} {leftLen rightLen : Nat}
  {lefts rights : List Tuple}

theorem nextTuple_noKeys_error (hkeys : op.on = []) (hty : op.joinType ≠ .cross)
    (input input' : List (Result Tuple)) :
    nextTuple arena (ofOperator op leftLen rightLen input input') =
      .error (.error (.unsupportedStmt
        "`NestLoopJoin` should be used when there is no equivalent condition")) := by
  have hinit : (ofOperator op leftLen rightLen input input').initError =
      some (.unsupportedStmt
        "`NestLoopJoin` should be used when there is no equivalent condition") := by
    simp [ofOperator, hkeys, hty]
  rw [nextTuple, hinit]

/-- When an outer hash join returns exactly the rows of the join. -/
theorem yields_outer_iff (hkl : op.joinType.keepsLeft = true)
    (h : op.Evaluates arena.positions lefts rights) (hw : ∀ l ∈ lefts, l.values.length = leftLen) :
    (∃ rows, Yields (nextTuple arena)
        (ofOperator op leftLen rightLen (lefts.map .ok) (rights.map .ok)) rows ∧
      rows.Perm ((Join.join true op.joinType.keepsRight (op.partners arena.positions) lefts
        rights).map (assembleTuple leftLen rightLen))) ↔
      op.on ≠ [] ∧ (∀ l ∈ lefts, op.resurfaces arena.positions lefts rights l = false) ∧
        (op.joinType.keepsRight = true →
          ∀ r ∈ rights, op.repeats arena.positions lefts r = false) := by
  have hcross : op.joinType ≠ .cross := by
    intro hty
    rw [hty] at hkl
    cases hkl
  by_cases hkeys : op.on = []
  · have herror := @nextTuple_noKeys_error op arena leftLen rightLen hkeys hcross (lefts.map .ok)
      (rights.map .ok)
    refine iff_of_false ?_ (fun hne => hne.1 hkeys)
    rintro ⟨rows, hrows, -⟩
    cases hrows with
    | done hn => rw [herror] at hn; cases hn
    | more hn => rw [herror] at hn; cases hn
  · obtain ⟨out, hout, hperm⟩ := @yields_surplus op arena leftLen rightLen lefts rights hkeys hcross
      h fun _ => hw
    have hnil := @surplus_eq_nil op leftLen rightLen arena.positions lefts rights
    simp only [hkl, forall_const] at hnil
    rw [hkl] at hperm
    rw [← hnil]
    constructor
    · rintro ⟨rows, hrows, hjoin⟩
      refine ⟨hkeys, ?_⟩
      rw [hout.unique hrows] at hperm
      have hlen := (hperm.symm.trans hjoin).length_eq
      rw [List.length_append] at hlen
      exact List.length_eq_zero_iff.mp (by omega)
    · rintro ⟨-, hnil⟩
      rw [hnil, List.append_nil] at hperm
      exact ⟨out, hout, hperm⟩

/-- A left outer hash join returns the rows of the join exactly if it has keys and no left row
with a partner resurfaces. -/
theorem leftOuter_iff (hty : op.joinType = .leftOuter)
    (h : op.Evaluates arena.positions lefts rights)
    (hw : ∀ l ∈ lefts, l.values.length = leftLen) :
    (∃ rows, Yields (nextTuple arena)
        (ofOperator op leftLen rightLen (lefts.map .ok) (rights.map .ok)) rows ∧
      rows.Perm ((Join.join true false (op.partners arena.positions) lefts rights).map
        (assembleTuple leftLen rightLen))) ↔
      op.on ≠ [] ∧ ∀ l ∈ lefts, op.resurfaces arena.positions lefts rights l = false := by
  have hiff := @yields_outer_iff op arena leftLen rightLen lefts rights (by rw [hty]; rfl) h hw
  rw [hty] at hiff
  simpa [JoinType.keepsRight] using hiff

/-- A join on the first columns whose filter wants ten in the third column of a pair. -/
def onlyTen (ty : JoinType) : JoinOperator where
  joinType := ty
  on := [(.other [⟨0, 0⟩] fun vs => .ok (vs.headD .null),
    .other [⟨0, 1⟩] fun vs => .ok (vs.headD .null))]
  filter := some (.other [⟨2, 2⟩] fun
    | [.int32 10] => .ok (.boolean true)
    | _ => .ok (.boolean false))
  forceNestedLoop := false

theorem leftOuter_iff_onlyTen :
    ∃ rows, Yields (nextTuple directArena) (ofOperator (onlyTen .leftOuter) 1 2
        [.ok ⟨none, [.int32 1]⟩] [.ok ⟨none, [.int32 1, .int32 20]⟩,
          .ok ⟨none, [.int32 1, .int32 10]⟩]) rows ∧
      rows.Perm [⟨none, [.int32 1, .int32 1, .int32 10]⟩] := by
  refine (@leftOuter_iff (onlyTen .leftOuter) directArena 1 2 [⟨none, [.int32 1]⟩]
    [⟨none, [.int32 1, .int32 20]⟩, ⟨none, [.int32 1, .int32 10]⟩] rfl ⟨?_, ?_, ?_⟩ ?_).mpr
    ⟨by simp [onlyTen], ?_⟩
  · intro l hl
    fin_cases hl
    exact ⟨_, rfl⟩
  · intro r hr
    fin_cases hr <;> exact ⟨_, rfl⟩
  · intro l hl r hr _
    fin_cases hl
    fin_cases hr <;> exact ⟨_, rfl⟩
  · simp
  · intro l hl
    fin_cases hl
    rfl

/-- The left row joins the first right row and, since the filter rejects the second, is also
extended with NULLs. -/
theorem leftOuter_resurfaces :
    Yields (nextTuple directArena) (ofOperator (onlyTen .leftOuter) 1 2
        [.ok ⟨none, [.int32 1]⟩] [.ok ⟨none, [.int32 1, .int32 10]⟩,
          .ok ⟨none, [.int32 1, .int32 20]⟩])
        [⟨none, [.int32 1, .int32 1, .int32 10]⟩, ⟨none, [.int32 1, .null, .null]⟩] ∧
      (Join.join true false ((onlyTen .leftOuter).partners directArena.positions)
        [⟨none, [.int32 1]⟩] [⟨none, [.int32 1, .int32 10]⟩, ⟨none, [.int32 1, .int32 20]⟩]).map
        (assembleTuple 1 2) = [⟨none, [.int32 1, .int32 1, .int32 10]⟩] := by
  refine ⟨?_, rfl⟩
  refine .more rfl ?_
  refine .more rfl ?_
  exact .done rfl

/-- A full outer hash join returns the rows of the join exactly if it has keys, no left row with a
partner resurfaces and no right row is repeated. -/
theorem full_iff (hty : op.joinType = .full)
    (h : op.Evaluates arena.positions lefts rights)
    (hw : ∀ l ∈ lefts, l.values.length = leftLen) :
    (∃ rows, Yields (nextTuple arena)
        (ofOperator op leftLen rightLen (lefts.map .ok) (rights.map .ok)) rows ∧
      rows.Perm ((Join.join true true (op.partners arena.positions) lefts rights).map
        (assembleTuple leftLen rightLen))) ↔
      op.on ≠ [] ∧ (∀ l ∈ lefts, op.resurfaces arena.positions lefts rights l = false) ∧
        ∀ r ∈ rights, op.repeats arena.positions lefts r = false := by
  have hiff := @yields_outer_iff op arena leftLen rightLen lefts rights (by rw [hty]; rfl) h hw
  rw [hty] at hiff
  simpa [JoinType.keepsRight] using hiff

theorem full_iff_onlyTen :
    ∃ rows, Yields (nextTuple directArena) (ofOperator (onlyTen .full) 1 2
        [.ok ⟨none, [.int32 1]⟩, .ok ⟨none, [.null]⟩] [.ok ⟨none, [.int32 1, .int32 20]⟩]) rows ∧
      rows.Perm [⟨none, [.int32 1, .null, .null]⟩, ⟨none, [.null, .null, .null]⟩,
        ⟨none, [.null, .int32 1, .int32 20]⟩] := by
  refine (@full_iff (onlyTen .full) directArena 1 2 [⟨none, [.int32 1]⟩, ⟨none, [.null]⟩]
    [⟨none, [.int32 1, .int32 20]⟩] rfl ⟨?_, ?_, ?_⟩ ?_).mpr ⟨by simp [onlyTen], ?_, ?_⟩
  · intro l hl
    fin_cases hl <;> exact ⟨_, rfl⟩
  · intro r hr
    fin_cases hr
    exact ⟨_, rfl⟩
  · intro l hl r hr _
    fin_cases hr
    fin_cases hl <;> exact ⟨_, rfl⟩
  · simp
  · intro l hl
    fin_cases hl <;> rfl
  · intro r hr
    fin_cases hr
    rfl

/-- The filter rejects the right row with both left rows, so it is extended with NULLs twice. -/
theorem full_repeats :
    Yields (nextTuple directArena) (ofOperator (onlyTen .full) 1 2
        [.ok ⟨none, [.int32 1]⟩, .ok ⟨none, [.int32 1]⟩] [.ok ⟨none, [.int32 1, .int32 20]⟩])
        [⟨none, [.null, .int32 1, .int32 20]⟩, ⟨none, [.null, .int32 1, .int32 20]⟩,
          ⟨none, [.int32 1, .null, .null]⟩, ⟨none, [.int32 1, .null, .null]⟩] ∧
      (Join.join true true ((onlyTen .full).partners directArena.positions)
        [⟨none, [.int32 1]⟩, ⟨none, [.int32 1]⟩] [⟨none, [.int32 1, .int32 20]⟩]).map
        (assembleTuple 1 2) = [⟨none, [.int32 1, .null, .null]⟩,
          ⟨none, [.int32 1, .null, .null]⟩, ⟨none, [.null, .int32 1, .int32 20]⟩] := by
  refine ⟨?_, rfl⟩
  refine .more rfl ?_
  refine .more rfl ?_
  refine .more rfl ?_
  refine .more rfl ?_
  exact .done rfl

end HashJoin

end KiteSQL
