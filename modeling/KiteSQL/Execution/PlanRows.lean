import KiteSQL.Execution.NestedLoopRows
import KiteSQL.Storage.TableScan

/-! The executors of limits, table scans and joins return the rows that their plans stand for. -/
namespace KiteSQL

open Iterate List Result

structure Limit where
  offset : Option Nat
  limit : Option Nat
  skipped : Nat
  emitted : Nat

namespace Limit

def ofOperator (op : LimitOperator) : Limit := ⟨op.offset, op.limit, 0, 0⟩

/-- The loop that pulls tuples from the input until the offset is passed. -/
def pull (it : Limit) : List (Result Tuple) →
    Result (Option Tuple × (Limit × List (Result Tuple)))
  | [] => .ok (none, (it, []))
  | item :: input => do
    let tuple ← item
    if it.skipped < it.offset.getD 0 then pull { it with skipped := it.skipped + 1 } input
    else return (some tuple, ({ it with emitted := it.emitted + 1 }, input))

def nextTuple (s : Limit × List (Result Tuple)) :
    Result (Option Tuple × (Limit × List (Result Tuple))) :=
  let limit := s.1.limit.getD usizeMax
  if limit = 0 ∨ limit ≤ s.1.emitted then .ok (none, s) else s.1.pull s.2

variable {it : Limit} {s : Limit × List (Result Tuple)} {rows rest : List Tuple} {row : Tuple}
  {offset : Nat} {limit : Option Nat} {op : LimitOperator}

/-- The loop ends with the input, or returns the first tuple behind the offset. -/
theorem pull_eq (it : Limit) (rows : List Tuple) :
    match rows.drop (it.offset.getD 0 - it.skipped) with
    | [] => ∃ t, it.pull (rows.map .ok) = .ok (none, t)
    | row :: rest => ∃ skipped, it.offset.getD 0 ≤ skipped ∧ it.pull (rows.map .ok) =
        .ok (some row, ({ it with skipped, emitted := it.emitted + 1 }, rest.map .ok)) := by
  induction rows generalizing it with
  | nil =>
    rw [drop_nil]
    exact ⟨_, rfl⟩
  | cons row rows ih =>
    rw [map_cons, pull, ok_bind]
    by_cases hs : it.skipped < it.offset.getD 0
    · obtain ⟨k, hk⟩ : ∃ k, it.offset.getD 0 - it.skipped = k + 1 := ⟨_, (Nat.sub_add_cancel
        (Nat.sub_pos_of_lt hs)).symm⟩
      have hk' : it.offset.getD 0 - (it.skipped + 1) = k := by omega
      have ih := ih { it with skipped := it.skipped + 1 }
      rw [if_pos hs, hk, drop_succ_cons]
      rwa [hk'] at ih
    · rw [if_neg hs, Nat.sub_eq_zero_of_le (Nat.le_of_not_lt hs)]
      exact ⟨it.skipped, Nat.le_of_not_lt hs, rfl⟩

/-- The state of an executor in front of `rows`, with this much of the offset and the limit
left. -/
structure Before (s : Limit × List (Result Tuple)) (rows : List Tuple) (offset : Nat)
    (limit : Option Nat) : Prop where
  input : s.2 = rows.map .ok
  offset : s.1.offset.getD 0 - s.1.skipped = offset
  limit : s.1.limit.map (· - s.1.emitted) = limit
  counts : s.1.emitted + rows.length ≤ usizeMax

theorem Before.nextTuple_eq (h : Before s rows offset limit) (hl : limit ≠ some 0)
    (hne : rows ≠ []) : nextTuple s = s.1.pull (rows.map .ok) := by
  obtain ⟨it, input⟩ := s
  obtain ⟨rfl, -, rfl, hc⟩ := h
  have hlen := length_pos_iff.mpr hne
  dsimp only at hc
  refine if_neg ?_
  cases hk : it.limit with
  | none =>
    simp only [Option.getD_none]
    omega
  | some k =>
    simp only [hk, Option.map_some, ne_eq, Option.some.injEq] at hl
    simp only [Option.getD_some]
    omega

theorem Before.ends (h : Before s rows offset limit)
    (hend : limit = some 0 ∨ rows.length ≤ offset) : ∃ t, nextTuple s = .ok (none, t) := by
  by_cases hl : limit = some 0
  · obtain ⟨k, hk, hz⟩ := Option.map_eq_some_iff.mp (h.limit.trans hl)
    refine ⟨_, if_pos ?_⟩
    rw [hk, Option.getD_some]
    omega
  · have hpull := pull_eq s.1 rows
    rw [h.offset, drop_eq_nil_of_le (hend.resolve_left hl)] at hpull
    by_cases hne : rows = []
    · rw [nextTuple, h.input, hne]
      split
      · exact ⟨_, rfl⟩
      · exact ⟨_, rfl⟩
    · rw [h.nextTuple_eq hl hne]
      exact hpull

theorem Before.returns (h : Before s rows offset limit) (hl : limit ≠ some 0)
    (hd : rows.drop offset = row :: rest) :
    ∃ t, nextTuple s = .ok (some row, t) ∧ Before t rest 0 (limit.map (· - 1)) := by
  have hpull := pull_eq s.1 rows
  rw [h.offset, hd] at hpull
  obtain ⟨skipped, hs, hpull⟩ := hpull
  have hlen := congrArg length hd
  rw [length_drop, length_cons] at hlen
  have hne : rows ≠ [] := by
    rintro rfl
    simp at hd
  have hc := h.counts
  refine ⟨_, (h.nextTuple_eq hl hne).trans hpull, rfl, Nat.sub_eq_zero_of_le hs, ?_, ?_⟩
  · rw [← h.limit, Option.map_map]
    exact congrFun (congrArg _ (funext fun k => (Nat.sub_sub ..).symm)) _
  · dsimp only
    omega

/-- The limit executor returns the rows of the plan. -/
theorem yields_rows {context : ExecutionContext} {child : LogicalPlan}
    (h : child.rows context = .ok (rows.map Tuple.values)) (hlen : rows.length ≤ usizeMax) :
    ∃ out, Yields nextTuple (ofOperator op, rows.map .ok) out ∧
      (LogicalPlan.limit op child).rows context = .ok (out.map Tuple.values) := by
  have hbefore : Before (ofOperator op, rows.map .ok) rows (op.offset.getD 0) op.limit := by
    refine ⟨rfl, rfl, ?_, by simpa [ofOperator] using hlen⟩
    cases hl : op.limit <;> simp [ofOperator, hl]
  refine ⟨_, yields_slice (fun _ _ _ _ => Before.ends) (fun _ _ _ _ _ _ => Before.returns) hbefore,
    LogicalPlan.rows_limit_eq_ok.mpr ⟨_, h, ?_⟩⟩
  exact map_slice

end Limit

namespace TupleIter

variable [DecimalLayout] {it : TupleIter} {rows : List Tuple}

/-- The tuple of an entry. -/
def decode (it : TupleIter) (entry : KeyValue) : Result Tuple := do
  let tupleId ← it.pkTy.mapM (TableCodec.decodeTupleKey entry.1)
  decodeTuple it.deserializers tupleId entry.2 it.totalLen

omit [DecimalLayout] in
theorem skipOffset_of_length_le {n : Nat} {l : List KeyValue} (h : l.length ≤ n) :
    ∃ k, skipOffset n l = (k, none) ∨ skipOffset n l = (k, some []) := by
  induction n generalizing l with
  | zero => exact ⟨0, .inr (by rw [skipOffset, length_eq_zero_iff.mp (Nat.le_zero.mp h)])⟩
  | succ n ih =>
    cases l with
    | nil => exact ⟨n, .inl rfl⟩
    | cons e l => exact ih (Nat.le_of_succ_le_succ h)

theorem nextTupleInto_ends (h : it.bounds.limit = some 0 ∨ it.iter.length ≤ it.bounds.offset) :
    ∃ t, it.nextTupleInto = .ok (none, t) := by
  rcases h with hl | hlen
  · rw [nextTupleInto]
    split
    · exact ⟨_, rfl⟩
    · exact ⟨_, rfl⟩
    · dsimp only
      rw [if_pos (by simpa [IterBounds.limitReached] using hl)]
      exact ⟨_, rfl⟩
  · obtain ⟨k, hk | hk⟩ := skipOffset_of_length_le hlen <;> rw [nextTupleInto, hk] <;>
      exact ⟨_, rfl⟩

theorem nextTupleInto_of_entry {entry : KeyValue} {rest : List KeyValue} {row : Tuple}
    (hi : it.iter.drop it.bounds.offset = entry :: rest) (hl : it.bounds.limit ≠ some 0)
    (hd : it.decode entry = .ok row) :
    it.nextTupleInto = .ok (some row,
      { it with bounds := ⟨0, it.bounds.limit.map (· - 1)⟩, iter := rest }) := by
  obtain ⟨id, hid, hd⟩ := bind_eq_ok.mp hd
  rw [nextTupleInto, skipOffset_of_drop hi]
  simp only [IterBounds.limitReached, decide_eq_true_eq, if_neg hl, hid, hd, ok_bind]
  rfl

/-- A scan of a table whose entries are the rows of the context returns the rows of the plan. -/
theorem yields_rows {context : ExecutionContext} {op : TableScanOperator}
    (hbounds : it.bounds = ⟨op.limit.1.getD 0, op.limit.2⟩)
    (hdecode : Forall₂ (fun entry row => it.decode entry = .ok row) it.iter rows)
    (h : context.tables op.tableName = rows.map Tuple.values) :
    ∃ out, Yields nextTupleInto it out ∧
      (LogicalPlan.tableScan op).rows context = .ok (out.map Tuple.values) := by
  refine ⟨rows.slice it.bounds.offset it.bounds.limit, ?_, ?_⟩
  · refine yields_slice (R := fun it' rows offset limit =>
      Forall₂ (fun entry row => it.decode entry = .ok row) it'.iter rows ∧
        it' = { it with bounds := ⟨offset, limit⟩, iter := it'.iter }) ?_ ?_ ⟨hdecode, rfl⟩
    · rintro it' rows offset limit ⟨h, hit⟩ hend
      rw [hit] at h ⊢
      exact nextTupleInto_ends (hend.imp_right (h.length_eq ▸ ·))
    · rintro it' rows offset limit row rest ⟨h, hit⟩ hl hd
      obtain ⟨entry, entries, hrow, hrest, hi⟩ :=
        forall₂_cons_right_iff.mp (hd ▸ forall₂_drop offset h)
      rw [hit]
      exact ⟨_, nextTupleInto_of_entry hi hl hrow, hrest, rfl⟩
  · rw [LogicalPlan.rows, h, hbounds]
    exact congrArg _ map_slice.symm

end TupleIter

namespace JoinOperator

open HashJoin Join

variable {op : JoinOperator} {positions : Nat → Nat} {leftLen rightLen : Nat}
  {lefts rights out : List Tuple} {rows : List Row} {l r : Tuple}

/-- What the plan calls a match, on rows on which the keys can be evaluated. -/
theorem test_eq (hl : ∃ key, evalKeys positions (op.on.map Prod.fst) l = .ok key)
    (hr : ∃ key, evalKeys positions (op.on.map Prod.snd) r = .ok key) :
    op.test positions l.values r.values =
      if op.forceNestedLoop then op.loops positions l r else op.partners positions l r := by
  have hlefts := evalKeys_keyOf hl
  have hrights := evalKeys_keyOf hr
  rw [evalKeys, mapM_map, Function.comp_def] at hlefts hrights
  rw [test, joins, hlefts, ok_bind, hrights, ok_bind, loops, keysEqual, partners, keysMatch,
    accepts]
  cases he : DataValue.eqList (HashJoin.keyOf positions (op.on.map Prod.fst) l)
      (HashJoin.keyOf positions (op.on.map Prod.snd) r) with
  | false => cases op.forceNestedLoop <;> rfl
  | true =>
    rw [DataValue.any_isNull_of_eqList he]
    unfold passes
    cases op.forceNestedLoop <;>
      cases (HashJoin.keyOf positions (op.on.map Prod.snd) r).any DataValue.isNull <;> rfl

/-- A join on tuples is the join of the plan on their values. -/
theorem joined_of_perm {p : Tuple → Tuple → Bool}
    (hp : ∀ l ∈ lefts, ∀ r ∈ rights, p l r = op.test positions l.values r.values)
    (hj : op.joined positions leftLen rightLen (lefts.map Tuple.values)
      (rights.map Tuple.values) = .ok rows)
    (hout : out.Perm ((join op.joinType.keepsLeft op.joinType.keepsRight p lefts rights).map
      (assembleTuple leftLen rightLen))) : (out.map Tuple.values).Perm rows := by
  obtain ⟨-, rfl⟩ := joined_eq_ok.mp hj
  refine (hout.map _).trans (.of_eq ?_)
  rw [join_congr _ _ hp, join_map, map_map, map_map]
  refine map_congr_left fun pair _ => ?_
  obtain ⟨_ | l, _ | r⟩ := pair
  · simp [assembleTuple, assemble, replicate_append_replicate]
  · rfl
  · rfl
  · rfl

end JoinOperator

variable {op : JoinOperator} {leftLen rightLen : Nat} {lefts rights : List Tuple} {rows : List Row}

/-- A hash join without surplus returns the rows of the plan. -/
theorem HashJoin.yields_joined {arena : JoinArena} (hforce : op.forceNestedLoop = false)
    (hkeys : op.on ≠ []) (hty : op.joinType ≠ .cross)
    (h : op.Evaluates arena.positions lefts rights)
    (hw : op.joinType.keepsLeft = true → ∀ l ∈ lefts, l.values.length = leftLen)
    (hnone : surplus op arena.positions leftLen rightLen lefts rights = [])
    (hj : op.joined arena.positions leftLen rightLen (lefts.map Tuple.values)
      (rights.map Tuple.values) = .ok rows) :
    ∃ out, Yields (nextTuple arena)
        (ofOperator op leftLen rightLen (lefts.map .ok) (rights.map .ok)) out ∧
      (out.map Tuple.values).Perm rows := by
  obtain ⟨out, hyields, hperm⟩ :=
    @yields_surplus op arena leftLen rightLen lefts rights hkeys hty h hw
  rw [hnone, append_nil] at hperm
  refine ⟨out, hyields, JoinOperator.joined_of_perm (fun l hl r hr => ?_) hj hperm⟩
  rw [JoinOperator.test_eq (h.left l hl) (h.right r hr), hforce]
  rfl

/-- A nested loop join that the plan asks for returns the rows of the plan. -/
theorem NestedLoopJoin.yields_joined {positions : Nat → Nat} (hforce : op.forceNestedLoop = true)
    (h : op.LoopEvaluates positions lefts rights) (hw : Wide leftLen rightLen lefts rights)
    (hpos : 0 < leftLen + rightLen)
    (hj : op.joined positions leftLen rightLen (lefts.map Tuple.values)
      (rights.map Tuple.values) = .ok rows) :
    ∃ out, Yields (nextTuple positions)
        (ofOperator op leftLen rightLen (lefts.map .ok) (rights.map .ok)) out ∧
      (out.map Tuple.values).Perm rows := by
  obtain ⟨out, hyields, hperm⟩ := yields_loops h hw hpos
  refine ⟨out, hyields, JoinOperator.joined_of_perm (fun l hl r hr => ?_) hj hperm⟩
  rw [JoinOperator.test_eq (h.left l hl) (h.right r hr), hforce]
  rfl

end KiteSQL
