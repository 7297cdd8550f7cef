import KiteSQL.Execution.NestedLoopRows

/-! Nested loop joins on keys that are NULL, and on rows without columns. -/
namespace KiteSQL

open Iterate List Join DataValue JoinOperator

/-- What `ColumnPruning` does to a table scan: the columns that are not required go, and the
positions they had are reported. -/
def ColumnPruning.pruneTableScan (required : List Nat) (op : TableScanOperator) :
    TableScanOperator × List Nat :=
  ({ op with columns := op.columns.filter required.contains },
    (op.columns.zipIdx.filter fun c => !required.contains c.1).map Prod.snd)

namespace JoinOperator

variable {op : JoinOperator} {positions : Nat → Nat} {lefts rights : List Tuple} {l r : Tuple}

/-- A pair whose keys are equal and NULL somewhere, and on which the filter is true. -/
def nullPair (op : JoinOperator) (positions : Nat → Nat) (l r : Tuple) : Bool :=
  op.loops positions l r && !op.partners positions l r

theorem loops_of_partners (h : op.partners positions l r = true) :
    op.loops positions l r = true := by
  simp only [partners, keysMatch, Bool.and_eq_true] at h
  rw [loops, keysEqual, h.1.1.1, h.2]
  rfl

theorem LoopEvaluates.evaluates (h : op.LoopEvaluates positions lefts rights) :
    op.Evaluates positions lefts rights := by
  refine ⟨h.left, h.right, fun l hl r hr hk => h.filter l hl r hr ?_⟩
  simp only [keysMatch, Bool.and_eq_true] at hk
  exact hk.1.1

end JoinOperator

namespace NestedLoopJoin

variable {op : JoinOperator} {positions : Nat → Nat} {l r : Tuple} {lefts rights : List Tuple}
  {leftLen rightLen : Nat}

/-- What holds of the rows that are returned holds of the rows of the executor. -/
theorem exists_yields_iff {join : NestedLoopJoin} {out : List Tuple} {P : List Tuple → Prop}
    (h : Yields (nextTuple positions) join out) :
    (∃ rows, Yields (nextTuple positions) join rows ∧ P rows) ↔ P out := by
  constructor
  · rintro ⟨rows, hrows, hp⟩
    rwa [h.unique hrows]
  · exact fun hp => ⟨out, h, hp⟩

theorem pairs_loops_perm : (pairs (op.loops positions) lefts rights).Perm
    (pairs (op.partners positions) lefts rights ++
      pairs (op.nullPair positions) lefts rights) :=
  pairs_perm_of_imp fun _ _ _ _ => loops_of_partners

/-- An inner or cross join returns as many rows as there are matching pairs exactly if its rows
have columns and no NULL keys meet, or if there is nothing to return. -/
theorem length_iff (hty : op.joinType = .inner ∨ op.joinType = .cross)
    (h : op.LoopEvaluates positions lefts rights) (hw : Wide leftLen rightLen lefts rights) :
    (∃ rows, Yields (nextTuple positions)
        (ofOperator op leftLen rightLen (lefts.map .ok) (rights.map .ok)) rows ∧
      rows.length = (Join.pairs (op.partners positions) lefts rights).length) ↔
      if leftLen + rightLen = 0 then
        ∀ l ∈ lefts, ∀ r ∈ rights, op.partners positions l r = false
      else ∀ l ∈ lefts, ∀ r ∈ rights, op.nullPair positions l r = false := by
  have hne : op.joinType ≠ .rightOuter := by rcases hty with hty | hty <;> simp [hty]
  have hfull : op.joinType ≠ .full := by rcases hty with hty | hty <;> simp [hty]
  have hleft : op.joinType.keepsLeft = false := by rcases hty with hty | hty <;> rw [hty] <;> rfl
  have hrows := yields_straight hne h hw fun hf => absurd hf hfull
  rw [hleft, if_neg hfull, append_nil] at hrows
  refine (exists_yields_iff hrows).trans ?_
  by_cases hzero : leftLen + rightLen = 0
  · rw [if_pos hzero, if_pos hzero, ← pairs_eq_nil, length_nil, eq_comm]
    exact length_eq_zero_iff
  · rw [if_neg hzero, if_neg hzero, length_map, (byLeft_perm false).length_eq, join_inner,
      pairs_loops_perm.length_eq, length_append, ← pairs_eq_nil, ← length_eq_zero_iff]
    omega

theorem length_iff_cross :
    ∃ rows, Yields (nextTuple id) (ofOperator ⟨.cross, [], none, false⟩ 1 0
        [.ok ⟨none, [.int32 1]⟩, .ok ⟨none, [.int32 2]⟩] [.ok ⟨none, []⟩, .ok ⟨none, []⟩]) rows ∧
      rows.length = 4 := by
  refine (@length_iff ⟨.cross, [], none, false⟩ id [⟨none, [.int32 1]⟩, ⟨none, [.int32 2]⟩]
    [⟨none, []⟩, ⟨none, []⟩] 1 0 (.inr rfl) ⟨fun l _ => ⟨[], rfl⟩, fun r _ => ⟨[], rfl⟩,
      fun l _ r _ _ => ⟨true, rfl⟩⟩ ⟨by simp, by simp⟩).mpr ?_
  rw [if_neg (by simp)]
  intro l _ r _
  rfl

/-- A cross join of two tables of which no column is required: it has two pairs and returns
nothing. -/
theorem cross_returns_nothing :
    let a := (ColumnPruning.pruneTableScan [] ⟨"a", [0, 1], (none, none)⟩).1
    let b := (ColumnPruning.pruneTableScan [] ⟨"b", [2], (none, none)⟩).1
    a.columns = [] ∧ b.columns = [] ∧
      Yields (nextTuple id) (ofOperator ⟨.cross, [], none, false⟩ a.columns.length
        b.columns.length [.ok ⟨none, []⟩, .ok ⟨none, []⟩] [.ok ⟨none, []⟩]) [] ∧
      (Join.pairs ((⟨.cross, [], none, false⟩ : JoinOperator).partners id)
        [⟨none, []⟩, ⟨none, []⟩] [⟨none, []⟩]).length = 2 :=
  ⟨rfl, rfl, .done rfl, rfl⟩

/-- The values of the row that a pair, or a row without a partner, makes. -/
def rowValues (leftLen rightLen : Nat) (pair : Option Tuple × Option Tuple) : Row :=
  (HashJoin.assembleTuple leftLen rightLen pair).values

/-- The right rows that a nested loop joins with a left row although keys are NULL. -/
def nullMatches (op : JoinOperator) (positions : Nat → Nat) (rights : List Tuple) (l : Tuple) :
    List Tuple :=
  rights.filter (op.nullPair positions l)

/-- NULL keys do not change the rows of a left row: they meet no others, or, in a left outer join
and if the row has no partner, those of one right row that is all NULL. -/
def Harmless (op : JoinOperator) (positions : Nat → Nat) (rights : List Tuple) (l : Tuple) : Prop :=
  nullMatches op positions rights l = [] ∨
    op.joinType = .leftOuter ∧ rights.any (op.partners positions l) = false ∧
      ∃ r, nullMatches op positions rights l = [r] ∧ ∀ v ∈ r.values, v = .null

/-- The rows of a left row, when the pairs are those of a test. -/
def rowsOn (keepLeft : Bool) (rightLen : Nat) (p : Tuple → Tuple → Bool) (rights : List Tuple)
    (l : Tuple) : List Row :=
  ((rights.filter (p l)).map fun r => l.values ++ r.values) ++
    if keepLeft && !rights.any (p l) then [l.values ++ List.replicate rightLen .null] else []

theorem map_byLeft_values (keepLeft : Bool) (p : Tuple → Tuple → Bool) :
    (byLeft keepLeft p lefts rights).map (rowValues leftLen rightLen) =
      lefts.flatMap (rowsOn keepLeft rightLen p rights) := by
  rw [byLeft, map_flatMap]
  refine flatMap_congr fun l _ => ?_
  rw [map_append, map_map, rowsOn]
  cases keepLeft && !rights.any (p l) <;> rfl

theorem filter_loops_perm (l : Tuple) : (rights.filter (op.loops positions l)).Perm
    (rights.filter (op.partners positions l) ++ nullMatches op positions rights l) := by
  refine (filter_append_perm (op.partners positions l) _).symm.trans (.of_eq ?_)
  rw [filter_filter, filter_filter, nullMatches]
  congr 1
  · refine filter_congr fun r _ => ?_
    cases hp : op.partners positions l r with
    | false => rfl
    | true => rw [loops_of_partners hp]; rfl
  · refine filter_congr fun r _ => ?_
    rw [nullPair, Bool.and_comm]

theorem any_eq_length {α : Type} (p : α → Bool) (xs : List α) :
    xs.any p = decide ((xs.filter p).length ≠ 0) := by
  rw [Bool.eq_iff_iff]
  simp

theorem rowsOn_length (keepLeft : Bool) (p : Tuple → Tuple → Bool) :
    (rowsOn keepLeft rightLen p rights l).length = (rights.filter (p l)).length +
      if keepLeft = true ∧ (rights.filter (p l)).length = 0 then 1 else 0 := by
  rw [rowsOn, length_append, length_map, any_eq_length]
  cases keepLeft <;> by_cases hn : (rights.filter (p l)).length = 0 <;> simp [hn]

theorem length_loops : (rights.filter (op.loops positions l)).length =
    (rights.filter (op.partners positions l)).length +
      (nullMatches op positions rights l).length := by
  rw [(filter_loops_perm l).length_eq, length_append]

variable {keepLeft : Bool}

theorem rowsOn_length_le : (rowsOn keepLeft rightLen (op.partners positions) rights l).length ≤
    (rowsOn keepLeft rightLen (op.loops positions) rights l).length := by
  rw [rowsOn_length, rowsOn_length, length_loops]
  cases keepLeft with
  | false => simp
  | true =>
    simp only [true_and]
    split <;> split <;> omega

/-- Without NULL matches a left row has the same rows. -/
theorem rowsOn_perm (hn : nullMatches op positions rights l = []) :
    (rowsOn keepLeft rightLen (op.loops positions) rights l).Perm
      (rowsOn keepLeft rightLen (op.partners positions) rights l) := by
  have hperm := @filter_loops_perm op positions rights l
  rw [hn, append_nil] at hperm
  have hany : rights.any (op.loops positions l) = rights.any (op.partners positions l) := by
    rw [any_eq_length, any_eq_length, hperm.length_eq]
  rw [rowsOn, rowsOn, hany]
  exact (hperm.map _).append_right _

/-- Both kinds of rows of a left row that has no partner and meets one right row on NULL keys. -/
theorem rowsOn_single (hp : rights.any (op.partners positions l) = false)
    (hn : nullMatches op positions rights l = [r]) :
    rowsOn true rightLen (op.loops positions) rights l = [l.values ++ r.values] ∧
      rowsOn true rightLen (op.partners positions) rights l =
        [l.values ++ replicate rightLen .null] := by
  have hnone : rights.filter (op.partners positions l) = [] := by
    rw [any_eq_length] at hp
    simpa using hp
  have hperm := @filter_loops_perm op positions rights l
  rw [hnone, hn, nil_append, perm_singleton] at hperm
  have hany : rights.any (op.loops positions l) = true := by
    rw [any_eq_length, hperm]
    rfl
  rw [rowsOn, rowsOn, hperm, hnone, hany, hp]
  exact ⟨rfl, rfl⟩

/-- A row whose columns of the right side are all NULL. -/
def padded (leftLen : Nat) (row : Row) : Bool := (row.drop leftLen).all DataValue.isNull

theorem padded_append (hl : l.values.length = leftLen) (values : List DataValue) :
    padded leftLen (l.values ++ values) = values.all isNull := by
  rw [padded, ← hl, drop_left]

theorem padded_lone (hl : l.values.length = leftLen) :
    padded leftLen (l.values ++ replicate rightLen null) = true := by
  rw [padded_append hl, all_replicate]
  simp [isNull]

/-- The rows of the left rows agree exactly if no NULL keys do harm. -/
theorem flatMap_rowsOn_perm_iff (hw : Wide leftLen rightLen lefts rights)
    (hkeep : keepLeft = decide (op.joinType = .leftOuter)) :
    (lefts.flatMap (rowsOn keepLeft rightLen (op.loops positions) rights)).Perm
        (lefts.flatMap (rowsOn keepLeft rightLen (op.partners positions) rights)) ↔
      ∀ l ∈ lefts, Harmless op positions rights l := by
  constructor
  · intro hperm
    have hlen : ∀ l ∈ lefts,
        (rowsOn keepLeft rightLen (op.partners positions) rights l).length =
          (rowsOn keepLeft rightLen (op.loops positions) rights l).length := by
      have hcount := countP_eq_of_perm hperm.symm (t := fun _ => true)
      simp only [countP_true] at hcount
      exact hcount fun l _ => rowsOn_length_le
    have hcases : ∀ l ∈ lefts, nullMatches op positions rights l = [] ∨
        op.joinType = .leftOuter ∧ rights.any (op.partners positions l) = false ∧
          ∃ r, nullMatches op positions rights l = [r] := by
      intro l hl
      have hl := hlen l hl
      rw [rowsOn_length, rowsOn_length, length_loops] at hl
      cases hk : keepLeft with
      | false =>
        left
        simp only [hk, Bool.false_eq_true, false_and, if_false] at hl
        exact length_eq_zero_iff.mp (by omega)
      | true =>
        rw [hk, eq_comm, decide_eq_true_iff] at hkeep
        simp only [hk, true_and] at hl
        by_cases hn : (nullMatches op positions rights l).length = 0
        · exact .inl (length_eq_zero_iff.mp hn)
        · refine .inr ⟨hkeep, ?_, length_eq_one_iff.mp ?_⟩
          · have hzero : (rights.filter (op.partners positions l)).length = 0 := by
              split at hl <;> split at hl <;> omega
            rw [any_eq_length, hzero]
            rfl
          · split at hl <;> split at hl <;> omega
    have hpad : ∀ l ∈ lefts,
        (rowsOn keepLeft rightLen (op.loops positions) rights l).countP (padded leftLen) =
          (rowsOn keepLeft rightLen (op.partners positions) rights l).countP
            (padded leftLen) := by
      refine countP_eq_of_perm hperm fun l hl => ?_
      rcases hcases l hl with hn | ⟨hty, hp, r, hn⟩
      · exact Nat.le_of_eq ((rowsOn_perm hn).countP_eq _)
      · rw [hkeep, hty, decide_eq_true rfl, (rowsOn_single hp hn).1, (rowsOn_single hp hn).2,
          countP_singleton, countP_singleton, padded_lone (hw.left l hl), if_pos rfl]
        split <;> omega
    intro l hl
    rcases hcases l hl with hn | ⟨hty, hp, r, hn⟩
    · exact .inl hn
    · refine .inr ⟨hty, hp, r, hn, ?_⟩
      have hcount := hpad l hl
      rw [hkeep, hty, decide_eq_true rfl, (rowsOn_single hp hn).1, (rowsOn_single hp hn).2,
        countP_singleton, countP_singleton, padded_lone (hw.left l hl),
        padded_append (hw.left l hl), if_pos rfl] at hcount
      have hall : r.values.all isNull = true := by
        by_contra hnot
        rw [if_neg hnot] at hcount
        omega
      exact fun v hv => isNull_iff.mp (all_eq_true.mp hall v hv)
  · intro hharm
    refine List.Perm.flatMap_left _ fun l hl => ?_
    rcases hharm l hl with hn | ⟨hty, hp, r, hn, hnull⟩
    · exact rowsOn_perm hn
    · have hmem : r ∈ rights := by
        have hr : r ∈ nullMatches op positions rights l := by simp [hn]
        exact mem_of_mem_filter hr
      have hvalues : r.values = replicate rightLen .null :=
        eq_replicate_iff.mpr ⟨hw.right r hmem, hnull⟩
      rw [hkeep, hty, decide_eq_true rfl, (rowsOn_single hp hn).1, (rowsOn_single hp hn).2, hvalues]

/-- The values of the rows that a join without swapped sides returns. -/
theorem values_straight {out : List (Option Tuple × Option Tuple)} :
    (out.map (HashJoin.assembleTuple leftLen rightLen)).map Tuple.values =
      out.map (rowValues leftLen rightLen) :=
  map_map

/-- An inner or left outer nested loop join returns the rows of the join, and an inner one those of
the hash join, exactly if its rows have columns and no NULL keys do harm, or if there is nothing to
return. -/
theorem nullKeys_iff {arena : JoinArena} (hkeys : op.on ≠ [])
    (hty : op.joinType = .inner ∨ op.joinType = .leftOuter)
    (h : op.LoopEvaluates arena.positions lefts rights)
    (hw : Wide leftLen rightLen lefts rights) :
    (∃ rows, Yields (nextTuple arena.positions)
        (ofOperator op leftLen rightLen (lefts.map .ok) (rights.map .ok)) rows ∧
      (rows.map Tuple.values).Perm ((Join.join op.joinType.keepsLeft false
        (op.partners arena.positions) lefts rights).map (rowValues leftLen rightLen)) ∧
      (op.joinType = .inner → ∃ hashed, Yields (HashJoin.nextTuple arena)
          (HashJoin.ofOperator op leftLen rightLen (lefts.map .ok) (rights.map .ok)) hashed ∧
        (rows.map Tuple.values).Perm (hashed.map Tuple.values))) ↔
      if leftLen + rightLen = 0 then
        Join.join op.joinType.keepsLeft false (op.partners arena.positions) lefts rights = []
      else ∀ l ∈ lefts, Harmless op arena.positions rights l := by
  have hne : op.joinType ≠ .rightOuter := by rcases hty with hty | hty <;> simp [hty]
  have hfull : op.joinType ≠ .full := by rcases hty with hty | hty <;> simp [hty]
  have hkeep : op.joinType.keepsLeft = decide (op.joinType = .leftOuter) := by
    rcases hty with hty | hty <;> rw [hty] <;> rfl
  have hhash : op.joinType = .inner → ∃ hashed, Yields (HashJoin.nextTuple arena)
      (HashJoin.ofOperator op leftLen rightLen (lefts.map .ok) (rights.map .ok)) hashed ∧
      ((join op.joinType.keepsLeft false (op.partners arena.positions) lefts rights).map
        (rowValues leftLen rightLen)).Perm (hashed.map Tuple.values) := by
    intro hinner
    have hkl : op.joinType.keepsLeft = false := by rw [hinner]; rfl
    obtain ⟨hashed, hrows, hperm⟩ := @HashJoin.yields_surplus op arena leftLen rightLen lefts
      rights hkeys (by simp [hinner]) h.evaluates (by simp [hkl])
    refine ⟨hashed, hrows, ?_⟩
    rw [HashJoin.surplus_eq_nil.mpr (by simp [hkl]), append_nil, hinner] at hperm
    rw [hinner, ← values_straight]
    exact (hperm.map _).symm
  have hiff : (∃ rows, Yields (nextTuple arena.positions)
        (ofOperator op leftLen rightLen (lefts.map .ok) (rights.map .ok)) rows ∧
      (rows.map Tuple.values).Perm ((join op.joinType.keepsLeft false
        (op.partners arena.positions) lefts rights).map (rowValues leftLen rightLen))) ↔
      if leftLen + rightLen = 0 then
        join op.joinType.keepsLeft false (op.partners arena.positions) lefts rights = []
      else ∀ l ∈ lefts, Harmless op arena.positions rights l := by
    have hrows := yields_straight hne h hw fun hf => absurd hf hfull
    rw [if_neg hfull, append_nil] at hrows
    refine (exists_yields_iff hrows).trans ?_
    by_cases hzero : leftLen + rightLen = 0
    · rw [if_pos hzero, if_pos hzero, map_nil, nil_perm, map_eq_nil_iff]
    · rw [if_neg hzero, if_neg hzero, values_straight, map_byLeft_values,
        ← flatMap_rowsOn_perm_iff hw hkeep]
      have hjoin := (byLeft_perm (p := op.partners arena.positions) (l := lefts) (r := rights)
        op.joinType.keepsLeft).map (rowValues leftLen rightLen)
      rw [map_byLeft_values] at hjoin
      exact ⟨fun hp => hp.trans hjoin.symm, fun hp => hp.trans hjoin⟩
  refine Iff.trans ?_ hiff
  constructor
  · rintro ⟨rows, hrows, hperm, -⟩
    exact ⟨rows, hrows, hperm⟩
  · rintro ⟨rows, hrows, hperm⟩
    refine ⟨rows, hrows, hperm, fun hinner => ?_⟩
    obtain ⟨hashed, hhashed, hsame⟩ := hhash hinner
    exact ⟨hashed, hhashed, hperm.trans hsame⟩

/-- A join on the first columns. -/
def onFirst (ty : JoinType) : JoinOperator where
  joinType := ty
  on := [(.other [⟨0, 0⟩] fun vs => .ok (vs.headD .null),
    .other [⟨0, 1⟩] fun vs => .ok (vs.headD .null))]
  filter := none
  forceNestedLoop := true

theorem nullKeys_iff_onFirst :
    ∃ rows, Yields (nextTuple HashJoin.plainArena.positions) (ofOperator (onFirst .leftOuter) 1 1
        [.ok ⟨none, [.int32 1]⟩, .ok ⟨none, [.null]⟩] [.ok ⟨none, [.int32 1]⟩]) rows ∧
      (rows.map Tuple.values).Perm [[.int32 1, .int32 1], [.null, .null]] := by
  have hiff := @nullKeys_iff (onFirst .leftOuter) [⟨none, [.int32 1]⟩, ⟨none, [.null]⟩]
    [⟨none, [.int32 1]⟩] 1 1 HashJoin.plainArena (by simp [onFirst]) (.inr rfl)
    ⟨fun l hl => by fin_cases hl <;> exact ⟨_, rfl⟩, fun r hr => by fin_cases hr; exact ⟨_, rfl⟩,
      fun l _ r _ _ => ⟨true, rfl⟩⟩ ⟨by simp, by simp⟩
  obtain ⟨rows, hrows, hperm, -⟩ := hiff.mpr (by
    rw [if_neg (by simp)]
    intro l hl
    fin_cases hl <;> exact .inl rfl)
  exact ⟨rows, hrows, hperm⟩

/-- NULL keys are joined with NULL keys, which neither SQL nor the hash join does. -/
theorem nullKeys_joined :
    Yields (nextTuple HashJoin.plainArena.positions) (ofOperator (onFirst .inner) 1 1
        [.ok ⟨none, [.null]⟩] [.ok ⟨none, [.null]⟩]) [⟨none, [.null, .null]⟩] ∧
      Yields (HashJoin.nextTuple HashJoin.plainArena) (HashJoin.ofOperator (onFirst .inner) 1 1
        [.ok ⟨none, [.null]⟩] [.ok ⟨none, [.null]⟩]) [] ∧
      Join.join false false ((onFirst .inner).partners HashJoin.plainArena.positions)
        [⟨none, [.null]⟩] [⟨none, [.null]⟩] = [] := by
  refine ⟨?_, .done rfl, rfl⟩
  refine .more rfl ?_
  exact .done rfl

/-- Without NULL keys that match, the hash join returns the rows of the nested loop join and its
surplus, for every type of join on keys. -/
theorem hashJoin_perm_loops {arena : JoinArena} (hkeys : op.on ≠ []) (hty : op.joinType ≠ .cross)
    (h : op.LoopEvaluates arena.positions lefts rights)
    (hw : Wide leftLen rightLen lefts rights) (hpos : 0 < leftLen + rightLen)
    (hnull : ∀ l ∈ lefts, ∀ r ∈ rights, op.nullPair arena.positions l r = false) :
    ∃ looped hashed, Yields (nextTuple arena.positions)
        (ofOperator op leftLen rightLen (lefts.map .ok) (rights.map .ok)) looped ∧
      Yields (HashJoin.nextTuple arena)
        (HashJoin.ofOperator op leftLen rightLen (lefts.map .ok) (rights.map .ok)) hashed ∧
      hashed.Perm
        (looped ++ HashJoin.surplus op arena.positions leftLen rightLen lefts rights) := by
  have hsame : ∀ l ∈ lefts, ∀ r ∈ rights,
      op.loops arena.positions l r = op.partners arena.positions l r := by
    intro l hl r hr
    have hn := hnull l hl r hr
    cases hp : op.partners arena.positions l r with
    | true => exact loops_of_partners hp
    | false => simpa [nullPair, hp] using hn
  obtain ⟨looped, hloop, hlooped⟩ := yields_loops h hw hpos
  obtain ⟨hashed, hhash, hhashed⟩ := HashJoin.yields_surplus hkeys hty h.evaluates fun _ => hw.left
  rw [join_congr _ _ hsame] at hlooped
  exact ⟨looped, hashed, hloop, hhash, hhashed.trans (hlooped.symm.append_right _)⟩

/-- The filter is the second column of the left side. -/
def onFirstIf (ty : JoinType) : JoinOperator :=
  { onFirst ty with filter := some (.other [⟨1, 1⟩] fun vs => .ok (vs.headD .null)) }

/-- Both rows of the left side have the key of the right row and the filter rejects the second of
them, for which the hash join returns the right row once more. -/
theorem hashJoin_perm_loops_full :
    ∃ looped hashed, Yields (nextTuple HashJoin.directArena.positions)
        (ofOperator (onFirstIf .full) 2 1
          [.ok ⟨none, [.int32 1, .boolean true]⟩, .ok ⟨none, [.int32 1, .boolean false]⟩]
          [.ok ⟨none, [.int32 1]⟩]) looped ∧
      Yields (HashJoin.nextTuple HashJoin.directArena) (HashJoin.ofOperator (onFirstIf .full) 2 1
          [.ok ⟨none, [.int32 1, .boolean true]⟩, .ok ⟨none, [.int32 1, .boolean false]⟩]
          [.ok ⟨none, [.int32 1]⟩]) hashed ∧
      hashed.Perm (looped ++ [⟨none, [.null, .null, .int32 1]⟩]) :=
  @hashJoin_perm_loops (onFirstIf .full)
    [⟨none, [.int32 1, .boolean true]⟩, ⟨none, [.int32 1, .boolean false]⟩] [⟨none, [.int32 1]⟩] 2 1
    HashJoin.directArena (by simp [onFirstIf, onFirst]) nofun
    ⟨fun l hl => by fin_cases hl <;> exact ⟨_, rfl⟩, fun r hr => by fin_cases hr; exact ⟨_, rfl⟩,
      fun l hl r hr _ => by fin_cases hl <;> fin_cases hr <;> exact ⟨_, rfl⟩⟩
    ⟨by simp, by simp⟩ (by decide) (by decide)

end NestedLoopJoin

end KiteSQL
