import KiteSQL.Planner.Plan
import KiteSQL.Storage.TableScan

/-! The rules that move LIMIT and OFFSET towards the scans. -/
namespace KiteSQL

open List LimitOperator Join JoinOperator

/-- A rule that gives no plan leaves the plan as it is. -/
abbrev NormalizationRule := LogicalPlan → Option LogicalPlan

def limitProjectTranspose : NormalizationRule
  | .limit op (.project exprs child) => some (.project exprs (.limit op child))
  | _ => none

def pushLimitThroughJoin : NormalizationRule
  | .limit op (.join join left right) =>
    match join.joinType with
    | .leftOuter => some (.limit op (.join join (.limit op left) right))
    | .rightOuter => some (.limit op (.join join left (.limit op right)))
    | _ => none
  | _ => none

def pushLimitIntoScan : NormalizationRule
  | .limit op (.tableScan scan) => some (.tableScan { scan with limit := (op.offset, op.limit) })
  | _ => none

/-- The passes of a rule over the root of a plan, at most `passes` of them. -/
def NormalizationRule.fixPoint (rule : NormalizationRule) : Nat → LogicalPlan → LogicalPlan
  | 0, plan => plan
  | passes + 1, plan =>
    match rule plan with
    | none => plan
    | some plan => fixPoint rule passes plan

/-- How many of `n` rows a limit returns. -/
def LimitOperator.count (op : LimitOperator) (n : Nat) : Nat :=
  match op.limit with
  | none => n - op.offset.getD 0
  | some m => min m (n - op.offset.getD 0)

namespace LogicalPlan

variable {context : ExecutionContext} {op : LimitOperator} {join : JoinOperator} {n : Nat}
  {child left right : LogicalPlan} {rows rows' joined : List Row}

/-- The limit placed above a plan a number of times. -/
def limits (op : LimitOperator) : Nat → LogicalPlan → LogicalPlan
  | 0, plan => plan
  | n + 1, plan => .limit op (limits op n plan)

theorem limits_limit (op : LimitOperator) (n : Nat) (plan : LogicalPlan) :
    limits op n (.limit op plan) = limits op (n + 1) plan := by
  induction n with
  | zero => rfl
  | succ n ih => exact congrArg (LogicalPlan.limit op) ih

@[simp] theorem outputSchema_limits (op : LimitOperator) (n : Nat) (plan : LogicalPlan) :
    (limits op n plan).outputSchema = plan.outputSchema := by
  induction n with
  | zero => rfl
  | succ n ih => rw [limits, outputSchema, ih]

theorem fixPoint_leftOuter (h : join.joinType = .leftOuter) (n : Nat) (left : LogicalPlan) :
    NormalizationRule.fixPoint pushLimitThroughJoin n (.limit op (.join join left right)) =
      .limit op (.join join (limits op n left) right) := by
  induction n generalizing left with
  | zero => rfl
  | succ n ih =>
    rw [NormalizationRule.fixPoint, pushLimitThroughJoin, h]
    dsimp only
    rw [ih, limits_limit]

theorem fixPoint_rightOuter (h : join.joinType = .rightOuter) (n : Nat) (right : LogicalPlan) :
    NormalizationRule.fixPoint pushLimitThroughJoin n (.limit op (.join join left right)) =
      .limit op (.join join left (limits op n right)) := by
  induction n generalizing right with
  | zero => rfl
  | succ n ih =>
    rw [NormalizationRule.fixPoint, pushLimitThroughJoin, h]
    dsimp only
    rw [ih, limits_limit]

theorem rows_limits (op : LimitOperator) (h : child.rows context = .ok rows) (n : Nat) :
    (limits op n child).rows context =
      .ok ((slice (op.offset.getD 0) op.limit)^[n] rows) := by
  induction n with
  | zero => exact h
  | succ n ih =>
    rw [Function.iterate_succ_apply']
    exact rows_limit_eq_ok.mpr ⟨_, ih, rfl⟩

end LogicalPlan

namespace JoinOperator

variable {op : JoinOperator} {positions : Nat → Nat} {leftLen rightLen : Nat}
  {left left' right right' rows : List Row}

/-- With fewer of the rows that an outer join keeps it returns fewer rows, but at least one for
each. -/
theorem joined_leftOuter_sublist (hty : op.joinType = .leftOuter) (h : left'.Sublist left)
    (hj : op.joined positions leftLen rightLen left right = .ok rows) :
    ∃ rows', op.joined positions leftLen rightLen left' right = .ok rows' ∧
      rows'.Sublist rows ∧ left'.length ≤ rows'.length := by
  obtain ⟨hok, rfl⟩ := joined_eq_ok.mp hj
  refine ⟨_, joined_eq_ok.mpr ⟨fun l hl => hok l (h.subset hl), rfl⟩, ?_, ?_⟩
  · rw [hty]
    exact (leftOuter_sublist h).map _
  · rw [hty, length_map]
    exact length_le_leftOuter

theorem joined_rightOuter_sublist (hty : op.joinType = .rightOuter) (h : right'.Sublist right)
    (hj : op.joined positions leftLen rightLen left right = .ok rows) :
    ∃ rows', op.joined positions leftLen rightLen left right' = .ok rows' ∧
      rows'.Sublist rows ∧ right'.length ≤ rows'.length := by
  obtain ⟨hok, rfl⟩ := joined_eq_ok.mp hj
  refine ⟨_, joined_eq_ok.mpr ⟨fun l hl r hr => hok l hl r (h.subset hr), rfl⟩, ?_, ?_⟩
  · rw [hty]
    exact (rightOuter_sublist h).map _
  · rw [hty, length_map]
    exact length_le_rightOuter

end JoinOperator

namespace LogicalPlan

variable {context : ExecutionContext} {op : LimitOperator} {join : JoinOperator}
  {plan left right : LogicalPlan} {rows rows' kept joined joined' : List Row}

/-- A plan returns some of the rows of a join, as many as the limit returns of all of them. -/
def ReturnsPart (plan : LogicalPlan) (context : ExecutionContext) (op : LimitOperator)
    (joined : List Row) : Prop :=
  ∃ out, plan.rows context = .ok out ∧ out.Subperm joined ∧ out.length = op.count joined.length

/-- A limit above the rows `rows'` that a join returns for the part of `kept` which the limit
leaves. -/
theorem returnsPart_limit (n : Nat) (ho : op.offset.getD 0 = 0 ∨ op.limit = some 0)
    (hplan : plan.rows context = .ok joined') (hj' : joined'.Perm rows') (hj : joined.Perm rows)
    (hsub : rows'.Sublist rows)
    (hall : (slice (op.offset.getD 0) op.limit)^[n + 1] kept = kept → rows' = rows)
    (hle : ((slice (op.offset.getD 0) op.limit)^[n + 1] kept).length ≤ rows'.length) :
    ReturnsPart (.limit op plan) context op joined := by
  refine ⟨_, rows_limit_eq_ok.mpr ⟨joined', hplan, rfl⟩, ?_, ?_⟩
  · exact slice_sublist.subperm.trans
      (hj'.subperm.trans (hsub.subperm.trans hj.symm.subperm))
  · rw [length_slice, hj'.length_eq, hj.length_eq, LimitOperator.count]
    have hlen := hsub.length_le
    rcases ho with ho | ho
    · rw [ho, iterate_slice_zero] at hall hle
      rw [ho]
      by_cases hshort : ∀ m, op.limit = some m → kept.length ≤ m
      · obtain rfl := hall (slice_zero_of_length_le hshort)
        rfl
      · push Not at hshort
        obtain ⟨m, hm, hlt⟩ := hshort
        rw [length_slice, hm] at hle
        rw [hm]
        dsimp only at hle ⊢
        omega
    · rw [ho]
      dsimp only
      omega

theorem returnsPart_leftOuter (n : Nat) (ho : op.offset.getD 0 = 0 ∨ op.limit = some 0)
    (hty : join.joinType = .leftOuter)
    (h : (LogicalPlan.join join left right).rows context = .ok joined) :
    ReturnsPart (.limit op (.join join (limits op (n + 1) left) right)) context op joined := by
  obtain ⟨lefts, rights, hl, hr, rows, hj, rfl⟩ := rows_join_eq_ok.mp h
  obtain ⟨rows', hj', hsub, hle⟩ := joined_leftOuter_sublist hty
    (iterate_slice_sublist (op.offset.getD 0) op.limit (n + 1)) hj
  have hplan := rows_join_eq_ok.mpr ⟨_, rights, rows_limits op hl (n + 1), hr, rows',
    by simpa using hj', rfl⟩
  refine returnsPart_limit n ho hplan (context.order.perm _ _ _ _) (context.order.perm _ _ _ _)
    hsub (fun heq => ?_) hle
  rw [heq, hj] at hj'
  exact (Except.ok.inj hj').symm

theorem returnsPart_rightOuter (n : Nat) (ho : op.offset.getD 0 = 0 ∨ op.limit = some 0)
    (hty : join.joinType = .rightOuter)
    (h : (LogicalPlan.join join left right).rows context = .ok joined) :
    ReturnsPart (.limit op (.join join left (limits op (n + 1) right))) context op joined := by
  obtain ⟨lefts, rights, hl, hr, rows, hj, rfl⟩ := rows_join_eq_ok.mp h
  obtain ⟨rows', hj', hsub, hle⟩ := joined_rightOuter_sublist hty
    (iterate_slice_sublist (op.offset.getD 0) op.limit (n + 1)) hj
  have hplan := rows_join_eq_ok.mpr ⟨lefts, _, hl, rows_limits op hr (n + 1), rows',
    by simpa using hj', rfl⟩
  refine returnsPart_limit n ho hplan (context.order.perm _ _ _ _) (context.order.perm _ _ _ _)
    hsub (fun heq => ?_) hle
  rw [heq, hj] at hj'
  exact (Except.ok.inj hj').symm

/-- Joins that return their rows in the order in which they are described. -/
def plainOrder : JoinOrder := ⟨fun _ _ _ rows => rows, fun _ _ _ _ => .refl _⟩

def emptyContext : ExecutionContext := ⟨fun _ => [], fun _ => 0, plainOrder⟩

/-- Rows without columns. -/
def blanks (n : Nat) : LogicalPlan := .values [] (List.replicate n [])

/-- A join without a condition. -/
def unconditional (ty : JoinType) : JoinOperator := ⟨ty, [], none, false⟩

theorem rows_unconditional_left (h : left.rows emptyContext = .ok rows) :
    ∃ joined, (LogicalPlan.join (unconditional .leftOuter) left (blanks 0)).rows emptyContext =
      .ok joined ∧ joined.length = rows.length := by
  refine ⟨_, rows_join_eq_ok.mpr ⟨rows, [], h, rfl, _,
    joined_eq_ok.mpr ⟨fun l _ r hr => by simp at hr, rfl⟩, rfl⟩, ?_⟩
  simp [emptyContext, plainOrder, unconditional, JoinType.keepsLeft, JoinType.keepsRight,
    join_leftOuter, pairs, loneLeft]

theorem rows_unconditional_right (h : right.rows emptyContext = .ok rows) :
    ∃ joined, (LogicalPlan.join (unconditional .rightOuter) (blanks 0) right).rows emptyContext =
      .ok joined ∧ joined.length = rows.length := by
  refine ⟨_, rows_join_eq_ok.mpr ⟨[], rows, rfl, h, _,
    joined_eq_ok.mpr ⟨fun l hl r _ => by simp at hl, rfl⟩, rfl⟩, ?_⟩
  simp [emptyContext, plainOrder, unconditional, JoinType.keepsLeft, JoinType.keepsRight,
    join_rightOuter, pairs, loneRight]

/-- One row more than the offset: the limit should return one, and the pushed limit returns
none. -/
theorem offset_of_returnsPart (n : Nat) (hjoined : joined.length = op.offset.getD 0 + 1)
    (hplan : plan.rows emptyContext = .ok joined')
    (hlen : joined'.length = ((slice (op.offset.getD 0) op.limit)^[n + 1]
      (replicate (op.offset.getD 0 + 1) ([] : Row))).length)
    (h : ReturnsPart (.limit op plan) emptyContext op joined) :
    op.offset.getD 0 = 0 ∨ op.limit = some 0 := by
  obtain ⟨out, hout, -, hcount⟩ := h
  obtain ⟨rows, hrows, rfl⟩ := rows_limit_eq_ok.mp hout
  rw [hplan] at hrows
  cases hrows
  have hle := length_iterate_slice_le (op.offset.getD 0) op.limit n
    (replicate (op.offset.getD 0 + 1) ([] : Row))
  rw [length_replicate] at hle
  rw [length_slice, hjoined, LimitOperator.count] at hcount
  cases hl : op.limit with
  | none =>
    rw [hl] at hcount
    dsimp only at hcount
    omega
  | some m =>
    rw [hl] at hcount
    dsimp only at hcount
    rw [Option.some.injEq]
    omega

end LogicalPlan

/-- Pushing a limit through an outer join any number of times keeps the number of rows exactly
when there is no offset or no row is asked for. -/
theorem pushLimitThroughJoin_iff {op : LimitOperator} {ty : JoinType}
    (hty : ty = .leftOuter ∨ ty = .rightOuter) {passes : Nat} (hpasses : 0 < passes) :
    (∀ (context : ExecutionContext) (join : JoinOperator) (left right : LogicalPlan)
      (joined : List Row), join.joinType = ty →
      (LogicalPlan.join join left right).rows context = .ok joined →
      LogicalPlan.ReturnsPart (NormalizationRule.fixPoint pushLimitThroughJoin passes
        (.limit op (.join join left right))) context op joined) ↔
      op.offset.getD 0 = 0 ∨ op.limit = some 0 := by
  obtain ⟨n, rfl⟩ : ∃ n, passes = n + 1 := ⟨passes - 1, by omega⟩
  constructor
  · intro h
    have hrows : (LogicalPlan.blanks (op.offset.getD 0 + 1)).rows LogicalPlan.emptyContext =
        .ok (List.replicate (op.offset.getD 0 + 1) []) := rfl
    have hpushed := LogicalPlan.rows_limits op hrows (n + 1)
    rcases hty with rfl | rfl
    · obtain ⟨joined, hj, hlen⟩ := LogicalPlan.rows_unconditional_left hrows
      obtain ⟨joined', hj', hlen'⟩ := LogicalPlan.rows_unconditional_left hpushed
      have hpart := h _ _ _ _ joined rfl hj
      rw [LogicalPlan.fixPoint_leftOuter rfl] at hpart
      exact LogicalPlan.offset_of_returnsPart n (by simpa using hlen) hj' hlen' hpart
    · obtain ⟨joined, hj, hlen⟩ := LogicalPlan.rows_unconditional_right hrows
      obtain ⟨joined', hj', hlen'⟩ := LogicalPlan.rows_unconditional_right hpushed
      have hpart := h _ _ _ _ joined rfl hj
      rw [LogicalPlan.fixPoint_rightOuter rfl] at hpart
      exact LogicalPlan.offset_of_returnsPart n (by simpa using hlen) hj' hlen' hpart
  · intro ho context join left right joined hjoin hj
    rcases hty with rfl | rfl
    · rw [LogicalPlan.fixPoint_leftOuter hjoin]
      exact LogicalPlan.returnsPart_leftOuter n ho hjoin hj
    · rw [LogicalPlan.fixPoint_rightOuter hjoin]
      exact LogicalPlan.returnsPart_rightOuter n ho hjoin hj

/-- The equality of the first columns of the two sides. -/
def onFirstColumns (ty : JoinType) : JoinOperator where
  joinType := ty
  on := [(.other [⟨0, 0⟩] fun vs => .ok (vs.headD .null),
    .other [⟨1, 1⟩] fun vs => .ok (vs.headD .null))]
  filter := none
  forceNestedLoop := false

/-- Of the rows 1 and 2 the first has two partners; `LIMIT 2` without an offset. -/
theorem pushLimitThroughJoin_without_offset :
    LogicalPlan.ReturnsPart (NormalizationRule.fixPoint pushLimitThroughJoin 10
      (.limit ⟨none, some 2⟩ (.join (onFirstColumns .leftOuter)
        (.values [0] [[.int32 1], [.int32 2]]) (.values [1] [[.int32 1], [.int32 3], [.int32 1]]))))
      LogicalPlan.emptyContext ⟨none, some 2⟩
      [[.int32 1, .int32 1], [.int32 1, .int32 1], [.int32 2, .null]] :=
  (pushLimitThroughJoin_iff (.inl rfl) (by decide)).mpr (.inl rfl) _ _ _ _ _ rfl rfl

/-- Two rows, each with one partner: `LIMIT 1 OFFSET 1` returns the second of them, and none once
the limit is pushed into the left side. -/
theorem pushLimitThroughJoin_offset_twice :
    let plan := LogicalPlan.join (onFirstColumns .leftOuter)
      (.values [0] [[.int32 1], [.int32 2]]) (.values [1] [[.int32 1], [.int32 2]])
    plan.rows LogicalPlan.emptyContext = .ok [[.int32 1, .int32 1], [.int32 2, .int32 2]] ∧
      (LogicalPlan.limit ⟨some 1, some 1⟩ plan).rows LogicalPlan.emptyContext =
        .ok [[.int32 2, .int32 2]] ∧
      (NormalizationRule.fixPoint pushLimitThroughJoin 10 (.limit ⟨some 1, some 1⟩ plan)).rows
        LogicalPlan.emptyContext = .ok [] :=
  ⟨rfl, rfl, rfl⟩

/-- The limit rules applied at one place of a chain of operators above a scan. -/
inductive LimitStep : LogicalPlan → LogicalPlan → Prop
  | transpose {plan plan' : LogicalPlan} : limitProjectTranspose plan = some plan' →
      LimitStep plan plan'
  | intoScan {plan plan' : LogicalPlan} : pushLimitIntoScan plan = some plan' →
      LimitStep plan plan'
  | underLimit {plan plan' : LogicalPlan} (op : LimitOperator) : LimitStep plan plan' →
      LimitStep (.limit op plan) (.limit op plan')
  | underProject {plan plan' : LogicalPlan} (exprs : List (PlanExpression × Nat)) :
      LimitStep plan plan' → LimitStep (.project exprs plan) (.project exprs plan')

/-- An operator of such a chain. -/
inductive ChainOperator where
  | limit (op : LimitOperator)
  | project (exprs : List (PlanExpression × Nat))

namespace ChainOperator

/-- The operators above a scan, the outermost first. -/
def plan (scan : TableScanOperator) : List ChainOperator → LogicalPlan
  | [] => .tableScan scan
  | .limit op :: ops => .limit op (plan scan ops)
  | .project exprs :: ops => .project exprs (plan scan ops)

def limits : List ChainOperator → List LimitOperator
  | [] => []
  | .limit op :: ops => op :: limits ops
  | .project _ :: ops => limits ops

def projects : List ChainOperator → List ChainOperator
  | [] => []
  | .limit _ :: ops => projects ops
  | .project exprs :: ops => .project exprs :: projects ops

/-- The scan after the limits, the innermost first, have each replaced its bounds. -/
def pushed (scan : TableScanOperator) : List LimitOperator → TableScanOperator
  | [] => scan
  | op :: ops => { pushed scan ops with limit := (op.offset, op.limit) }

variable {scan : TableScanOperator} {ops ops' : List ChainOperator} {p q : LogicalPlan}

/-- A step keeps the projections and what the limits make of the scan. -/
theorem step_plan (h : LimitStep (plan scan ops) q) : ∃ scan' ops', q = plan scan' ops' ∧
    projects ops' = projects ops ∧ pushed scan' (limits ops') = pushed scan (limits ops) := by
  induction ops generalizing q with
  | nil =>
    cases h with
    | transpose h => cases h
    | intoScan h => cases h
  | cons op ops ih =>
    cases op with
    | limit op =>
      cases h with
      | transpose h =>
        cases ops with
        | nil => cases h
        | cons op' ops =>
          cases op' with
          | limit op' => cases h
          | project exprs =>
            cases h
            exact ⟨scan, .project exprs :: .limit op :: ops, rfl, rfl, rfl⟩
      | intoScan h =>
        cases ops with
        | nil =>
          cases h
          exact ⟨_, [], rfl, rfl, rfl⟩
        | cons op' ops => cases op' <;> cases h
      | underLimit _ h =>
        obtain ⟨scan', ops', rfl, hproj, hpushed⟩ := ih h
        refine ⟨scan', .limit op :: ops', rfl, hproj, ?_⟩
        rw [limits, limits, pushed, pushed, hpushed]
    | project exprs =>
      cases h with
      | transpose h => cases h
      | intoScan h => cases h
      | underProject _ h =>
        obtain ⟨scan', ops', rfl, hproj, hpushed⟩ := ih h
        refine ⟨scan', .project exprs :: ops', rfl, ?_, hpushed⟩
        rw [projects, projects, hproj]

theorem steps_plan (h : Relation.ReflTransGen LimitStep (plan scan ops) q) :
    ∃ scan' ops', q = plan scan' ops' ∧ projects ops' = projects ops ∧
      pushed scan' (limits ops') = pushed scan (limits ops) := by
  induction h with
  | refl => exact ⟨scan, ops, rfl, rfl, rfl⟩
  | tail _ hstep ih =>
    obtain ⟨scan', ops', rfl, hproj, hpushed⟩ := ih
    obtain ⟨scan'', ops'', rfl, hproj', hpushed'⟩ := step_plan hstep
    exact ⟨scan'', ops'', rfl, hproj'.trans hproj, hpushed'.trans hpushed⟩

/-- As long as there is a limit in the chain some rule applies. -/
theorem exists_step (scan : TableScanOperator) (h : limits ops ≠ []) :
    ∃ q, LimitStep (plan scan ops) q := by
  induction ops with
  | nil => exact absurd rfl h
  | cons op ops ih =>
    cases op with
    | limit op =>
      cases ops with
      | nil => exact ⟨_, .intoScan rfl⟩
      | cons op' ops =>
        cases op' with
        | limit op' =>
          obtain ⟨q, hq⟩ := ih (by simp [limits])
          exact ⟨_, .underLimit op hq⟩
        | project exprs => exact ⟨_, .transpose rfl⟩
    | project exprs =>
      obtain ⟨q, hq⟩ := ih h
      exact ⟨_, .underProject exprs hq⟩

theorem projects_of_limits_nil (h : limits ops = []) : projects ops = ops := by
  induction ops with
  | nil => rfl
  | cons op ops ih =>
    cases op with
    | limit op => cases h
    | project exprs => exact congrArg (.project exprs :: ·) (ih h)

/-- At a fixed point the limits have disappeared into the scan. -/
theorem fixedPoint_eq (h : Relation.ReflTransGen LimitStep (plan scan ops) q)
    (hfix : ∀ q', ¬ LimitStep q q') : q = plan (pushed scan (limits ops)) (projects ops) := by
  obtain ⟨scan', ops', rfl, hproj, hpushed⟩ := steps_plan h
  have hnil : limits ops' = [] := by
    by_contra hne
    obtain ⟨q', hq'⟩ := exists_step scan' hne
    exact hfix q' hq'
  rw [← hproj, projects_of_limits_nil hnil, ← hpushed, hnil, pushed]

/-- One limit sinks through projections into the scan. -/
theorem limit_sinks (op : LimitOperator) (h : limits ops = []) :
    Relation.ReflTransGen LimitStep (.limit op (plan scan ops))
      (plan { scan with limit := (op.offset, op.limit) } ops) := by
  induction ops with
  | nil => exact .single (.intoScan rfl)
  | cons op' ops ih =>
    cases op' with
    | limit op' => cases h
    | project exprs =>
      refine .head (.transpose rfl) ?_
      exact (ih h).lift (LogicalPlan.project exprs) fun _ _ => .underProject exprs

theorem limits_projects (ops : List ChainOperator) : limits (projects ops) = [] := by
  induction ops with
  | nil => rfl
  | cons op ops ih => cases op <;> exact ih

/-- The rules do reach a fixed point. -/
theorem reaches_fixedPoint (scan : TableScanOperator) (ops : List ChainOperator) :
    Relation.ReflTransGen LimitStep (plan scan ops)
      (plan (pushed scan (limits ops)) (projects ops)) := by
  induction ops with
  | nil => exact .refl
  | cons op ops ih =>
    cases op with
    | limit op =>
      have hunder : Relation.ReflTransGen LimitStep (.limit op (plan scan ops))
          (.limit op (plan (pushed scan (limits ops)) (projects ops))) :=
        ih.lift (LogicalPlan.limit op) fun _ _ => .underLimit op
      exact hunder.trans (limit_sinks op (limits_projects ops))
    | project exprs => exact ih.lift (LogicalPlan.project exprs) fun _ _ => .underProject exprs

end ChainOperator

namespace LimitOperator

/-- The rows the limits leave, applied one after the other, the innermost first. -/
def applyAll (rows : List Row) : List LimitOperator → List Row
  | [] => rows
  | op :: ops => (applyAll rows ops).slice (op.offset.getD 0) op.limit

/-- The offset and the limit that nested limits amount to. -/
def window : List LimitOperator → Nat × Option Nat
  | [] => (0, none)
  | op :: ops => ((window ops).1 + op.offset.getD 0,
      List.composeLimit (window ops).2 (op.offset.getD 0) op.limit)

/-- The offset and the limit of the outermost of them alone. -/
def outermost : List LimitOperator → Nat × Option Nat
  | [] => (0, none)
  | op :: _ => (op.offset.getD 0, op.limit)

theorem applyAll_eq (rows : List Row) (ops : List LimitOperator) :
    applyAll rows ops = rows.slice (window ops).1 (window ops).2 := by
  induction ops with
  | nil => rfl
  | cons op ops ih => rw [applyAll, ih, slice_slice, window]

end LimitOperator

theorem ChainOperator.rows_pushed {context : ExecutionContext} {scan : TableScanOperator}
    (hscan : scan.limit = (none, none)) (ops : List LimitOperator) :
    (LogicalPlan.tableScan (pushed scan ops)).rows context =
      .ok ((context.tables scan.tableName).slice (outermost ops).1
        (outermost ops).2) := by
  have hname : (pushed scan ops).tableName = scan.tableName := by
    induction ops with
    | nil => rfl
    | cons op ops ih => exact ih
  rw [LogicalPlan.rows, hname]
  cases ops with
  | nil => rw [pushed, hscan, outermost, Option.getD_none]
  | cons op ops => rfl

/-- The fixed point of the limit rules scans what the nested limits return exactly when the
outermost limit alone amounts to all of them. -/
theorem limits_into_scan_iff {scan : TableScanOperator} (hscan : scan.limit = (none, none))
    {ops : List ChainOperator} {q : LogicalPlan}
    (h : Relation.ReflTransGen LimitStep (ChainOperator.plan scan ops) q)
    (hfix : ∀ q', ¬ LimitStep q q') :
    ∃ scan', q = ChainOperator.plan scan' (ChainOperator.projects ops) ∧
      ((∀ context : ExecutionContext, (LogicalPlan.tableScan scan').rows context =
          .ok (LimitOperator.applyAll (context.tables scan.tableName)
            (ChainOperator.limits ops))) ↔
        LimitOperator.outermost (ChainOperator.limits ops) =
            LimitOperator.window (ChainOperator.limits ops) ∨
          (LimitOperator.outermost (ChainOperator.limits ops)).2 = some 0 ∧
            (LimitOperator.window (ChainOperator.limits ops)).2 = some 0) := by
  refine ⟨_, ChainOperator.fixedPoint_eq h hfix, ?_⟩
  simp only [ChainOperator.rows_pushed hscan, LimitOperator.applyAll_eq, Except.ok.injEq]
  constructor
  · intro hall
    refine List.slice_lengths (a := ([] : Row)) fun n => ?_
    exact congrArg List.length (hall ⟨fun _ => List.replicate n [], fun _ => 0,
      LogicalPlan.plainOrder⟩)
  · rintro (heq | ⟨ho, hw⟩) context
    · rw [heq]
    · rw [ho, hw, List.slice_limit_zero, List.slice_limit_zero]

/-- `t` with all its rows. -/
def wholeTable : TableScanOperator := ⟨"t", [0], (none, none)⟩

theorem limits_into_scan_tighter_outside :
    ∃ scan', ChainOperator.plan scan' [] =
        .tableScan { wholeTable with limit := (none, some 5) } ∧
      ∀ context : ExecutionContext, (LogicalPlan.tableScan scan').rows context =
        .ok (LimitOperator.applyAll (context.tables "t") [⟨none, some 5⟩, ⟨none, some 10⟩]) := by
  obtain ⟨scan', heq, hiff⟩ := @limits_into_scan_iff wholeTable rfl
    [.limit ⟨none, some 5⟩, .limit ⟨none, some 10⟩] _ (ChainOperator.reaches_fixedPoint _ _) (by
      rintro q' (h | h)
      · cases h
      · cases h)
  exact ⟨scan', heq.symm, hiff.mpr (.inl rfl)⟩

/-- `SELECT * FROM (SELECT * FROM t LIMIT 1) LIMIT 2` on a table of two rows: the scan at the
fixed point returns both rows. -/
theorem limits_into_scan_looser_outside :
    let ops : List ChainOperator := [.limit ⟨none, some 2⟩, .project [], .limit ⟨none, some 1⟩]
    let context : ExecutionContext :=
      ⟨fun _ => [[.int32 1], [.int32 2]], fun _ => 0, LogicalPlan.plainOrder⟩
    ∃ scan', Relation.ReflTransGen LimitStep (ChainOperator.plan wholeTable ops)
        (.project [] (.tableScan scan')) ∧
      (∀ q', ¬ LimitStep (.project [] (.tableScan scan')) q') ∧
      (LogicalPlan.tableScan scan').rows context = .ok [[.int32 1], [.int32 2]] ∧
      LimitOperator.applyAll (context.tables "t") (ChainOperator.limits ops) = [[.int32 1]] := by
  refine ⟨_, ChainOperator.reaches_fixedPoint _ _, ?_, rfl, rfl⟩
  intro q' h
  cases h with
  | transpose h => cases h
  | intoScan h => cases h
  | underProject _ h =>
    cases h with
    | transpose h => cases h
    | intoScan h => cases h

end KiteSQL
