import KiteSQL.Execution.HashJoinProbe

/-! The left rows that left and full outer hash joins return after the last right row. -/
namespace KiteSQL

open Iterate JoinProbeStateImpl

namespace HashJoin

variable {op : JoinOperator} {arena : JoinArena} {kl kr full : Bool} {leftLen rightLen : Nat}
  {map : BuildMap} {bits : RowBitmap} {buf : List DataValue}

/-- A left row extended with NULLs, as `left_drop_next` extends it. -/
def extended (fullLen : Nat) (l : Tuple) : Tuple :=
  { l with values :=
    (l.values ++ List.replicate (fullLen - l.values.length) DataValue.null).take fullLen }

/-- The rows of one key that are extended with NULLs after the last probe. -/
def dropped (fullLen : Nat) (bits : RowBitmap) (hasFilted : Bool) (tuples : List (Nat × Tuple)) :
    List Tuple :=
  (tuples.filter fun t => bits.contains t.1 || !hasFilted).map (extended fullLen ·.2)

def droppedOf (fullLen : Nat) (bits : RowBitmap) (states : BuildMap) : List Tuple :=
  states.flatMap fun e => if e.2.isUsed then [] else dropped fullLen bits e.2.hasFilted e.2.tuples

/-- The rows that are still to be extended with NULLs. -/
def toDrop (fullLen : Nat) (bits : RowBitmap) (leftDrop : LeftDropState) : List Tuple :=
  (leftDrop.current.map fun c => dropped fullLen bits c.hasFilted c.tuples).getD [] ++
    droppedOf fullLen bits leftDrop.states

variable {fullLen : Nat} {hasFilted : Bool}

theorem dropCurrent_spec (tuples : List (Nat × Tuple)) :
    (dropCurrent fullLen bits hasFilted tuples).elim
      (dropped fullLen bits hasFilted tuples = [])
      fun res => dropped fullLen bits hasFilted tuples =
        res.1 :: dropped fullLen bits hasFilted res.2 := by
  induction tuples with
  | nil => rfl
  | cons t tuples ih =>
    rw [dropCurrent]
    by_cases h : (!bits.contains t.1 && hasFilted) = true
    · have hskip : dropped fullLen bits hasFilted (t :: tuples) =
          dropped fullLen bits hasFilted tuples := by
        simp_all [dropped]
      rw [if_pos h, hskip]
      exact ih
    · rw [if_neg h]
      have hkeep : (bits.contains t.1 || !hasFilted) = true := by
        cases hc : bits.contains t.1 <;> simp_all
      simp [dropped, hkeep, extended]

theorem dropStates_spec (states : BuildMap) :
    (dropStates fullLen bits states).elim
      (droppedOf fullLen bits states = [])
      fun res => droppedOf fullLen bits states = res.1 :: toDrop fullLen bits res.2 := by
  induction states with
  | nil => rfl
  | cons e states ih =>
    obtain ⟨key, tuples, used, filted⟩ := e
    rw [dropStates, droppedOf, List.flatMap_cons, ← droppedOf]
    cases used with
    | true => exact ih
    | false =>
      have hspec := @dropCurrent_spec bits fullLen filted tuples
      dsimp only
      rw [if_neg (by simp), if_neg (by simp)]
      cases hd : dropCurrent fullLen bits filted tuples with
      | none =>
        rw [hd] at hspec
        rw [show dropped fullLen bits filted tuples = [] from hspec]
        exact ih
      | some res =>
        rw [hd] at hspec
        rw [show dropped fullLen bits filted tuples = _ from hspec]
        rfl

theorem dropNext_spec (leftDrop : LeftDropState) :
    (dropNext fullLen bits leftDrop).elim
      (toDrop fullLen bits leftDrop = [])
      fun res => toDrop fullLen bits leftDrop = res.1 :: toDrop fullLen bits res.2 := by
  obtain ⟨states, current⟩ := leftDrop
  cases current with
  | none => exact dropStates_spec states
  | some current =>
    have hspec := @dropCurrent_spec bits fullLen current.hasFilted current.tuples
    rw [dropNext]
    dsimp only
    cases hd : dropCurrent fullLen bits current.hasFilted current.tuples with
    | none =>
      rw [hd] at hspec
      have hnil : toDrop fullLen bits ⟨states, some current⟩ = droppedOf fullLen bits states := by
        simp [toDrop, show dropped fullLen bits current.hasFilted current.tuples = [] from hspec]
      rw [hnil]
      exact dropStates_spec states
    | some res =>
      rw [hd] at hspec
      simp [toDrop, show dropped fullLen bits current.hasFilted current.tuples = _ from hspec]

theorem yields_drop (hinit : (ofOperator op leftLen rightLen [] []).initError = none)
    (leftDrop : LeftDropState) :
    Yields (nextTuple arena) (atState op leftLen rightLen
      (.leftDrop (.ofKept true full leftLen rightLen bits) leftDrop) [])
      (toDrop (rightLen + leftLen) bits leftDrop) := by
  have hcall : ∀ ld, nextTuple arena (atState op leftLen rightLen
      (.leftDrop (.ofKept true full leftLen rightLen bits) ld) []) =
      .ok ((dropNext (rightLen + leftLen) bits ld).elim
        (none, atState op leftLen rightLen .over [])
        fun res => (some res.1, atState op leftLen rightLen
          (.leftDrop (.ofKept true full leftLen rightLen bits) res.2) [])) := by
    intro ld
    have hjoin : (atState op leftLen rightLen
      (.leftDrop (.ofKept true full leftLen rightLen bits) ld) []).initError = none := hinit
    rw [nextTuple, hjoin]
    cases full <;>
      cases hd : dropNext (rightLen + leftLen) bits ld <;>
      simp [initializeBuild, atState, Result.ok_bind, drain, ofKept, leftDropNext, hd]
  refine yields_of_owed (P := fun join rows => ∃ ld, join = atState op leftLen rightLen
      (.leftDrop (.ofKept true full leftLen rightLen bits) ld) [] ∧
      toDrop (rightLen + leftLen) bits ld = rows) ?_ ?_ ⟨leftDrop, rfl, rfl⟩
  · rintro _ ⟨ld, rfl, hrows⟩
    have hspec := @dropNext_spec bits (rightLen + leftLen) ld
    rw [hcall]
    cases hd : dropNext (rightLen + leftLen) bits ld with
    | none => exact ⟨_, rfl⟩
    | some res =>
      rw [hd] at hspec
      exact absurd (hspec.symm.trans hrows) (by simp)
  · rintro _ row rows ⟨ld, rfl, hrows⟩
    have hspec := @dropNext_spec bits (rightLen + leftLen) ld
    rw [hcall]
    cases hd : dropNext (rightLen + leftLen) bits ld with
    | none =>
      rw [hd] at hspec
      exact absurd (hspec.symm.trans hrows) (by simp)
    | some res =>
      rw [hd] at hspec
      obtain ⟨hrow, hrest⟩ := List.cons_eq_cons.mp (hspec.symm.trans hrows)
      exact ⟨_, by rw [← hrow]; rfl, res.2, rfl, hrest⟩

/-- After the last right row the map of a join that keeps left rows is drained. -/
theorem yields_running_nil (hinit : (ofOperator op leftLen rightLen [] []).initError = none) :
    Yields (nextTuple arena) (running op leftLen rightLen map (.ofKept kl kr leftLen rightLen bits)
      buf none []) (if kl then droppedOf (rightLen + leftLen) bits (arena.entries map) else []) := by
  cases kl with
  | false =>
    have hover : nextTuple arena (running op leftLen rightLen map
        (.ofKept false kr leftLen rightLen bits) buf none []) =
        .ok (none, atState op leftLen rightLen .over []) := by
      rw [nextTuple_none hinit .build []]
      cases kr <;> rfl
    exact .done hover
  | true =>
    have hdrop := @yields_drop op arena kr leftLen rightLen bits hinit ⟨arena.entries map, none⟩
    refine hdrop.of_next_eq ?_
    rw [nextTuple_none hinit (.leftDrop (.ofKept true kr leftLen rightLen bits)
      ⟨arena.entries map, none⟩) [], nextTuple]
    have hjoin : (atState op leftLen rightLen (.leftDrop (.ofKept true kr leftLen rightLen bits)
      ⟨arena.entries map, none⟩) []).initError = none := hinit
    rw [hjoin]
    rfl

end HashJoin

end KiteSQL
