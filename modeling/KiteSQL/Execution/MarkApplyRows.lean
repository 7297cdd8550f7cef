import KiteSQL.Execution.MarkApply
import KiteSQL.Types.Evaluator.Equal

/-! The marks of subqueries are the truth values of EXISTS, ANY and ALL. -/
namespace KiteSQL

open Iterate DataValue List Result Truth MarkApplyOperator

/-- What the predicates are on pairs of rows. -/
abbrev PairTruth := Expression → Tuple → Tuple → Option Bool

/-- All predicates hold. -/
def accepts (truth : PairTruth) (predicates : List Expression) (l r : Tuple) : Bool :=
  predicates.all fun predicate => truth predicate l r == some true

/-- The comparison on the right rows that the other predicates accept. -/
def verdicts (truth : PairTruth) (comparison : Expression) (others : List Expression)
    (rows : List Tuple) (l : Tuple) : List (Option Bool) :=
  (rows.filter (accepts truth others l)).map (truth comparison l)

/-- The truth value of a subquery for a left row; a quantified one compares with its first
predicate. -/
def MarkApplyOperator.mark (op : MarkApplyOperator) (truth : PairTruth) (rows : List Tuple)
    (l : Tuple) : Option Bool :=
  match op.kind, op.predicates with
  | .quantified .any, comparison :: others => Truth.any (verdicts truth comparison others rows l)
  | .quantified .all, comparison :: others => Truth.all (verdicts truth comparison others rows l)
  | _, predicates => some (rows.any (accepts truth predicates l))

/-- An index scan returns the right rows that have the probed value, and all rows without bounds. -/
structure Probes (rightPlan : RightPlan) (column : Tuple → DataValue) (rows : List Tuple) :
    Prop where
  eq : ∀ v, ∃ found : List Tuple, rightPlan (some (.eq v)) = found.map .ok ∧
    found.Perm (rows.filter fun r => DataValue.eq v (column r))
  scope : ∃ found : List Tuple, rightPlan (some (.scope .unbounded .unbounded)) = found.map .ok ∧
    found.Perm rows

/-- The predicate that a probe may stand for: any one of EXISTS, the comparison of ANY. -/
def MarkApplyOperator.Probed (op : MarkApplyOperator) (predicate : Expression) : Prop :=
  op.kind = .exists_ ∧ predicate ∈ op.predicates ∨
    op.kind = .quantified .any ∧ op.predicates.head? = some predicate

/-- How the right rows are read: all of them, or by probes of a column that a predicate equates with
a value of the left row. -/
inductive RightReads (eval : RowEval) (truth : PairTruth) (rightPlan : RightPlan)
    (op : MarkApplyOperator) (left rows : List Tuple) : Prop
  | scanned :
      (∀ probe, op.parameterizedProbe = some probe →
        op.kind = .quantified .all ∧ ∀ l ∈ left, ∃ v, eval probe l = .ok v) →
      rightPlan none = rows.map .ok → RightReads eval truth rightPlan op left rows
  | probed {probe predicate : Expression} {column : Tuple → DataValue} :
      op.parameterizedProbe = some probe → op.Probed predicate →
      (∀ l ∈ left, ∃ v, eval probe l = .ok v ∧
        ∀ r ∈ rows, truth predicate l r = sqlEq v (column r)) →
      Probes rightPlan column rows → RightReads eval truth rightPlan op left rows

theorem RightReads.single {eval : RowEval} {truth : PairTruth} {rightPlan : RightPlan}
    {op : MarkApplyOperator} {left rows : List Tuple} {l : Tuple}
    (h : RightReads eval truth rightPlan op left rows) (hl : l ∈ left) :
    RightReads eval truth rightPlan op [l] rows := by
  have hsub : ∀ x ∈ [l], x ∈ left := by simpa using hl
  cases h with
  | scanned hprobe hright =>
    exact .scanned (fun probe hp => ⟨(hprobe probe hp).1, fun x hx =>
      (hprobe probe hp).2 x (hsub x hx)⟩) hright
  | probed hprobe hpred hkey hprobes =>
    exact .probed hprobe hpred (fun x hx => hkey x (hsub x hx)) hprobes

namespace MarkApply

variable {eval : RowEval} {evalPair : PairEval} {rightPlan : RightPlan} {truth : PairTruth}
  {op : MarkApplyOperator} {left rows : List Tuple} {l r : Tuple} {predicates : List Expression}

/-- The predicates are evaluated to their truth values on a left row and some right rows. -/
def Evaluates (evalPair : PairEval) (truth : PairTruth) (predicates : List Expression) (l : Tuple)
    (rows : List Tuple) : Prop :=
  ∀ predicate ∈ predicates, ∀ r ∈ rows, evalPair predicate l r = .ok (ofTruth (truth predicate l r))

theorem Evaluates.mono {found : List Tuple} (h : Evaluates evalPair truth predicates l rows)
    (hsub : ∀ r ∈ found, r ∈ rows) : Evaluates evalPair truth predicates l found :=
  fun predicate hp r hr => h predicate hp r (hsub r hr)

theorem predicatesMatched_eq
    (h : ∀ predicate ∈ predicates, evalPair predicate l r = .ok (ofTruth (truth predicate l r))) :
    predicatesMatched evalPair l r predicates = .ok (accepts truth predicates l r) := by
  induction predicates with
  | nil => rfl
  | cons predicate predicates ih =>
    rw [predicatesMatched, h predicate mem_cons_self, ok_bind]
    have ih := ih fun p hp => h p (mem_cons_of_mem _ hp)
    rw [accepts, all_cons]
    cases truth predicate l r with
    | none => rfl
    | some b =>
      cases b with
      | false => rfl
      | true =>
        rw [beq_self_eq_true, Bool.true_and]
        exact ih

theorem scanExists_eq (h : Evaluates evalPair truth op.predicates l rows) :
    scanExists evalPair op l (rows.map .ok) =
      .ok (.boolean (rows.any (accepts truth op.predicates l))) := by
  induction rows with
  | nil => rfl
  | cons r rows ih =>
    rw [map_cons, scanExists, ok_bind,
      predicatesMatched_eq fun p hp => h p hp r mem_cons_self, ok_bind, any_cons]
    cases accepts truth op.predicates l r with
    | true => rfl
    | false => exact ih (h.mono fun r hr => mem_cons_of_mem _ hr)

/-- The outcome of the comparison on a right row. -/
def outcomeOf (truth : PairTruth) (comparison : Expression) (others : List Expression)
    (l r : Tuple) : QuantifiedPredicateOutcome :=
  if accepts truth others l r then
    match truth comparison l r with
    | some true => .true
    | some false => .false
    | none => .null
  else .skip

variable {comparison : Expression} {others : List Expression}

theorem quantifiedPredicateOutcome_eq (hop : op.predicates = comparison :: others)
    (h : ∀ predicate ∈ op.predicates, evalPair predicate l r = .ok (ofTruth (truth predicate l r)))
    : quantifiedPredicateOutcome evalPair op l r = .ok (outcomeOf truth comparison others l r) := by
  rw [hop] at h
  rw [quantifiedPredicateOutcome, evalPredicates, hop]
  dsimp only
  rw [predicatesMatched_eq fun p hp => h p (mem_cons_of_mem _ hp), ok_bind, outcomeOf]
  cases accepts truth others l r with
  | false => rfl
  | true =>
    rw [if_pos rfl, if_pos rfl, h comparison mem_cons_self, ok_bind]
    rcases truth comparison l r with _ | _ | _ <;> rfl

/-- The outcome that a truth value stands for. -/
def outcomeFor : Option Bool → QuantifiedPredicateOutcome
  | some true => .true
  | some false => .false
  | none => .null

theorem outcomeOf_eq_iff (t : Option Bool) : outcomeOf truth comparison others l r = outcomeFor t ↔
    accepts truth others l r = true ∧ truth comparison l r = t := by
  unfold outcomeOf
  cases accepts truth others l r with
  | false => rcases t with _ | _ | _ <;> simp [outcomeFor]
  | true =>
    rcases truth comparison l r with _ | _ | _ <;> rcases t with _ | _ | _ <;> simp [outcomeFor]

theorem mem_verdicts {t : Option Bool} : t ∈ verdicts truth comparison others rows l ↔
    ∃ r ∈ rows, accepts truth others l r = true ∧ truth comparison l r = t := by
  simp [verdicts, and_assoc]

section Scan
variable (hop : op.predicates = comparison :: others)
  (h : Evaluates evalPair truth op.predicates l rows)
include hop h

theorem scanFor_eq (t : Option Bool) :
    scanFor evalPair (outcomeFor t) op l (rows.map .ok) =
      .ok (decide (t ∈ verdicts truth comparison others rows l)) := by
  induction rows with
  | nil => rfl
  | cons r rows ih =>
    have ih := ih (h.mono fun r hr => mem_cons_of_mem _ hr)
    rw [map_cons, scanFor, ok_bind,
      quantifiedPredicateOutcome_eq hop fun p hp => h p hp r mem_cons_self, ok_bind]
    by_cases hr : outcomeOf truth comparison others l r = outcomeFor t
    · have hmem : t ∈ verdicts truth comparison others (r :: rows) l :=
        mem_verdicts.mpr ⟨r, mem_cons_self, (outcomeOf_eq_iff t).mp hr⟩
      rw [if_pos hr, decide_eq_true hmem]
      rfl
    · have hiff : t ∈ verdicts truth comparison others (r :: rows) l ↔
          t ∈ verdicts truth comparison others rows l := by
        simp only [mem_verdicts, ← outcomeOf_eq_iff, mem_cons, exists_eq_or_imp, hr, false_or]
      rw [if_neg hr, ih]
      simp only [hiff]

/-- A scan that a decisive verdict ends; a NULL that was seen counts like one among the verdicts. -/
theorem scanQuantifiedRightInput_eq (quantifier : MarkApplyQuantifier) (sawNull : Bool) :
    scanQuantifiedRightInput evalPair quantifier op l (rows.map .ok) sawNull =
      .ok (ofTruth (
        if some (decide (quantifier = .any)) ∈ verdicts truth comparison others rows l then
          some (decide (quantifier = .any))
        else if sawNull = true ∨ none ∈ verdicts truth comparison others rows l then none
        else some (decide (quantifier = .all)))) := by
  induction rows generalizing sawNull with
  | nil => cases sawNull <;> rfl
  | cons r rows ih =>
    have ih := ih (h.mono fun r hr => mem_cons_of_mem _ hr)
    rw [map_cons, scanQuantifiedRightInput, ok_bind,
      quantifiedPredicateOutcome_eq hop fun p hp => h p hp r mem_cons_self, ok_bind]
    have hverdicts : verdicts truth comparison others (r :: rows) l =
        if accepts truth others l r then
          truth comparison l r :: verdicts truth comparison others rows l
        else verdicts truth comparison others rows l := by
      rw [verdicts, filter_cons]
      split <;> rfl
    rw [hverdicts, outcomeOf]
    cases accepts truth others l r with
    | false => exact ih sawNull
    | true =>
      simp only [if_true]
      rcases truth comparison l r with _ | _ | _
      · dsimp only
        rw [ih true]
        cases quantifier <;> simp
      · cases quantifier with
        | any =>
          dsimp only
          rw [if_neg (by simp), ih sawNull]
          simp
        | all => simp [pure, Except.pure, ofTruth]
      · cases quantifier with
        | any => simp [pure, Except.pure, ofTruth]
        | all =>
          dsimp only
          rw [if_neg (by simp), ih sawNull]
          simp

theorem scan_any :
    scanQuantifiedRightInput evalPair .any op l (rows.map .ok) false =
      .ok (ofTruth (Truth.any (verdicts truth comparison others rows l))) := by
  rw [scanQuantifiedRightInput_eq hop h, Truth.any]
  simp

theorem scan_all :
    scanQuantifiedRightInput evalPair .all op l (rows.map .ok) false =
      .ok (ofTruth (Truth.all (verdicts truth comparison others rows l))) := by
  rw [scanQuantifiedRightInput_eq hop h, Truth.all]
  simp

end Scan

theorem sqlEq_eq_true {v w : DataValue} (h : sqlEq v w = some true) : eq v w = true := by
  unfold sqlEq at h
  split at h
  · cases h
  · simpa using h

theorem sqlEq_eq_none {v w : DataValue} (hv : v.isNull = false) :
    sqlEq v w = none ↔ eq .null w = true := by
  rw [sqlEq, hv, Bool.false_or]
  cases w <;> simp [isNull, eq]

section Probe
variable {column : Tuple → DataValue} {v : DataValue} {predicate : Expression}
  (hprobes : Probes rightPlan column rows) (h : Evaluates evalPair truth op.predicates l rows)
include hprobes h

theorem scanExists_probe (hmem : predicate ∈ op.predicates)
    (hkey : ∀ r ∈ rows, truth predicate l r = sqlEq v (column r)) :
    scanExists evalPair op l (rightPlan (some (.eq v))) =
      .ok (.boolean (rows.any (accepts truth op.predicates l))) := by
  obtain ⟨found, hfound, hperm⟩ := hprobes.eq v
  have hsub : ∀ r ∈ found, r ∈ rows := fun r hr => (mem_filter.mp (hperm.subset hr)).1
  rw [hfound, scanExists_eq (h.mono hsub)]
  congr 2
  rw [Bool.eq_iff_iff, any_eq_true, any_eq_true]
  constructor
  · rintro ⟨r, hr, hacc⟩
    exact ⟨r, hsub r hr, hacc⟩
  · rintro ⟨r, hr, hacc⟩
    refine ⟨r, hperm.symm.subset (mem_filter.mpr ⟨hr, ?_⟩), hacc⟩
    have htrue := all_eq_true.mp hacc predicate hmem
    rw [hkey r hr, beq_iff_eq] at htrue
    exact sqlEq_eq_true htrue

section

variable (hop : op.predicates = comparison :: others)
include hop

/-- A lookup finds a verdict exactly if it is among all verdicts. -/
theorem scanFor_probe (t : Option Bool) (w : DataValue)
    (hfinds : ∀ r ∈ rows, truth comparison l r = t → eq w (column r) = true) :
    scanFor evalPair (outcomeFor t) op l (rightPlan (some (.eq w))) =
      .ok (decide (t ∈ verdicts truth comparison others rows l)) := by
  obtain ⟨found, hfound, hperm⟩ := hprobes.eq w
  have hsub : ∀ r ∈ found, r ∈ rows := fun r hr => (mem_filter.mp (hperm.subset hr)).1
  rw [hfound, scanFor_eq hop (h.mono hsub)]
  congr 1
  rw [decide_eq_decide, mem_verdicts, mem_verdicts]
  constructor
  · rintro ⟨r, hr, hverdict⟩
    exact ⟨r, hsub r hr, hverdict⟩
  · rintro ⟨r, hr, hacc, ht⟩
    exact ⟨r, hperm.symm.subset (mem_filter.mpr ⟨hr, hfinds r hr ht⟩), hacc, ht⟩

theorem probeAny_eq (hprobe : op.parameterizedProbe.isNone = false) (hv : v.isNull = false)
    (hkey : ∀ r ∈ rows, truth comparison l r = sqlEq v (column r)) :
    probeAny evalPair rightPlan op l v =
      .ok (ofTruth (Truth.any (verdicts truth comparison others rows l))) := by
  have hbuild : ∀ w, buildRightInput rightPlan op (some w) = rightPlan (some (.eq w)) := by
    intro w
    rw [buildRightInput, runtimeProbeFor, if_neg (by simp [hprobe])]
  have htrue := scanFor_probe hprobes h hop (some true) v fun r hr ht => by
    rw [hkey r hr] at ht
    exact sqlEq_eq_true ht
  have hnull := scanFor_probe hprobes h hop none .null fun r hr ht => by
    rw [hkey r hr] at ht
    exact (sqlEq_eq_none hv).mp ht
  rw [probeAny, hbuild, hbuild]
  dsimp only [outcomeFor] at htrue hnull
  rw [htrue, ok_bind, hnull, Truth.any]
  by_cases ht : some true ∈ verdicts truth comparison others rows l
  · simp [ht, pure, Except.pure, ofTruth]
  · by_cases hn : none ∈ verdicts truth comparison others rows l
    · simp [ht, hn, pure, Except.pure, ofTruth]
    · simp [ht, hn, pure, Except.pure, ofTruth]

theorem scan_any_scope :
    scanQuantifiedRightInput evalPair .any op l
        (rightPlan (some (.scope .unbounded .unbounded))) false =
      .ok (ofTruth (Truth.any (verdicts truth comparison others rows l))) := by
  obtain ⟨found, hfound, hperm⟩ := hprobes.scope
  rw [hfound, scan_any hop (h.mono fun r hr => hperm.subset hr)]
  have hmem : ∀ t, t ∈ verdicts truth comparison others found l ↔
      t ∈ verdicts truth comparison others rows l := by
    intro t
    rw [mem_verdicts, mem_verdicts]
    simp only [hperm.mem_iff]
  simp only [Truth.any, hmem]

end

end Probe

theorem parameterizedProbeValue_none (h : op.parameterizedProbe = none) :
    parameterizedProbeValue eval op l = .ok none := by
  rw [parameterizedProbeValue, h]
  rfl

theorem parameterizedProbeValue_some {probe : Expression} {v : DataValue}
    (h : op.parameterizedProbe = some probe) (hv : eval probe l = .ok v) :
    parameterizedProbeValue eval op l = .ok (some v) := by
  rw [parameterizedProbeValue, h]
  simp [hv]

section MarkValue
variable (h : Evaluates evalPair truth op.predicates l rows)
  (hreads : RightReads eval truth rightPlan op [l] rows)
include h hreads

theorem markValue_exists (hkind : op.kind = .exists_) :
    markValue eval evalPair rightPlan op l =
      .ok (.boolean (rows.any (accepts truth op.predicates l))) := by
  cases hreads with
  | scanned hprobe hright =>
    have hnone : op.parameterizedProbe = none := by
      refine Option.eq_none_iff_forall_ne_some.mpr fun probe hp => ?_
      rw [(hprobe probe hp).1] at hkind
      cases hkind
    rw [markValue, parameterizedProbeValue_none hnone, ok_bind, hkind, buildRightInput,
      runtimeProbeFor, hnone, ← scanExists_eq h, ← hright]
    rfl
  | probed hprobe hpred hkey hprobes =>
    obtain ⟨v, hv, hkey⟩ := hkey l (by simp)
    have hmem := hpred.resolve_right (by simp [hkind])
    rw [markValue, parameterizedProbeValue_some hprobe hv, ok_bind, hkind, buildRightInput,
      runtimeProbeFor, hprobe, ← scanExists_probe hprobes h hmem.2 hkey]
    rfl

theorem markValue_any (hkind : op.kind = .quantified .any)
    (hop : op.predicates = comparison :: others) :
    markValue eval evalPair rightPlan op l =
      .ok (ofTruth (any (verdicts truth comparison others rows l))) := by
  cases hreads with
  | scanned hprobe hright =>
    have hnone : op.parameterizedProbe = none := by
      refine Option.eq_none_iff_forall_ne_some.mpr fun probe hp => ?_
      rw [(hprobe probe hp).1] at hkind
      cases hkind
    rw [markValue, parameterizedProbeValue_none hnone, ok_bind, hkind]
    dsimp only
    rw [ok_bind, buildRightInput, runtimeProbeFor, hnone, ← scan_any hop h, ← hright]
    rfl
  | probed hprobe hpred hkey hprobes =>
    obtain ⟨v, hv, hkey⟩ := hkey l (by simp)
    have hhead := (hpred.resolve_left (by simp [hkind])).2
    rw [hop] at hhead
    cases hhead
    rw [markValue, parameterizedProbeValue_some hprobe hv, ok_bind, hkind]
    dsimp only
    rw [ok_bind]
    dsimp only
    cases hnull : v.isNull with
    | true =>
      rw [if_pos rfl, buildRightInput, runtimeProbeFor, hprobe, hkind,
        ← scan_any_scope hprobes h hop]
      rfl
    | false =>
      rw [if_neg (by simp)]
      exact probeAny_eq hprobes h hop (by simp [hprobe]) hnull hkey

theorem markValue_all (hkind : op.kind = .quantified .all)
    (hop : op.predicates = comparison :: others) :
    markValue eval evalPair rightPlan op l =
      .ok (ofTruth (all (verdicts truth comparison others rows l))) := by
  cases hreads with
  | scanned hprobe hright =>
    have hvalue : ∃ v, parameterizedProbeValue eval op l = .ok v := by
      cases hp : op.parameterizedProbe with
      | none => exact ⟨none, parameterizedProbeValue_none hp⟩
      | some probe =>
        obtain ⟨v, hv⟩ := (hprobe probe hp).2 l (by simp)
        exact ⟨some v, parameterizedProbeValue_some hp hv⟩
    obtain ⟨v, hv⟩ := hvalue
    have hbuild : buildRightInput rightPlan op none = rows.map .ok := by
      rw [buildRightInput, runtimeProbeFor, hkind, ← hright]
      simp
    rw [markValue, hv, ok_bind, hkind]
    dsimp only
    rw [hbuild, scan_all hop h]
  | probed hprobe hpred hkey hprobes => simp [MarkApplyOperator.Probed, hkind] at hpred

/-- The mark of one left row. -/
theorem markValue_eq (hkind : op.kind ≠ .innerJoin)
    (hquantified : ∀ quantifier, op.kind = .quantified quantifier → op.predicates ≠ []) :
    markValue eval evalPair rightPlan op l = .ok (ofTruth (op.mark truth rows l)) := by
  cases hk : op.kind with
  | innerJoin => exact absurd hk hkind
  | exists_ =>
    rw [markValue_exists h hreads hk, mark, hk]
    rfl
  | quantified quantifier =>
    obtain ⟨comparison, others, hop⟩ := exists_cons_of_ne_nil (hquantified quantifier hk)
    cases quantifier with
    | any =>
      rw [markValue_any h hreads hk hop, mark, hk, hop]
    | all =>
      rw [markValue_all h hreads hk hop, mark, hk, hop]

end MarkValue

/-- Every left row is returned once with its mark: whether some right row satisfies all predicates,
or the three-valued ANY or ALL of the comparison on the right rows that the other predicates
accept. -/
theorem yields_marks (eval : RowEval) (evalPair : PairEval) (rightPlan : RightPlan)
    (truth : PairTruth) (op : MarkApplyOperator) (left rows : List Tuple)
    (hkind : op.kind ≠ .innerJoin)
    (hquantified : ∀ quantifier, op.kind = .quantified quantifier → op.predicates ≠ [])
    (heval : ∀ l ∈ left, Evaluates evalPair truth op.predicates l rows)
    (hreads : RightReads eval truth rightPlan op left rows) :
    Yields (nextTuple eval evalPair rightPlan) ⟨op, left.map .ok, none⟩
      (left.map fun l => ⟨l.pk, l.values ++ [ofTruth (op.mark truth rows l)]⟩) := by
  have hrun : ∀ todo : List Tuple, (∀ l ∈ todo, l ∈ left) →
      Yields (nextTuple eval evalPair rightPlan) ⟨op, todo.map .ok, none⟩
        (todo.map fun l => ⟨l.pk, l.values ++ [ofTruth (op.mark truth rows l)]⟩) := by
    intro todo htodo
    induction todo with
    | nil =>
      refine .done (t := ⟨op, [], none⟩) ?_
      rw [nextTuple, if_neg hkind]
      rfl
    | cons l todo ih =>
      have hl := htodo l mem_cons_self
      have hmark := markValue_eq (heval l hl) (hreads.single hl) hkind hquantified
      refine .more (t := ⟨op, todo.map .ok, none⟩) ?_
        (ih fun x hx => htodo x (mem_cons_of_mem _ hx))
      rw [nextTuple, if_neg hkind, map_cons]
      dsimp only
      rw [ok_bind, hmark]
      rfl
  exact hrun left fun l hl => hl

end MarkApply

/-- The first value of a row. -/
def firstColumn (row : Tuple) : DataValue := row.values.headD .null

/-- `IN` over a column with a NULL and 7, by probes of its index. -/
def inProbed : MarkApplyOperator :=
  ⟨.quantified .any, [.constant (.boolean true)], some (.constant .null)⟩

def nullAndSeven : List Tuple := [⟨none, [.null]⟩, ⟨none, [.int32 7]⟩]

def probeFirstColumn (rows : List Tuple) : RightPlan
  | some (.eq v) => (rows.filter fun r => DataValue.eq v (firstColumn r)).map .ok
  | _ => rows.map .ok

theorem MarkApply.yields_marks_probed :
    Yields (nextTuple (fun _ row => .ok (firstColumn row))
        (fun _ l r => .ok (ofTruth (sqlEq (firstColumn l) (firstColumn r))))
        (probeFirstColumn nullAndSeven))
      ⟨inProbed, [.ok ⟨none, [.int32 7]⟩, .ok ⟨none, [.int32 8]⟩], none⟩
      [⟨none, [.int32 7, .boolean true]⟩, ⟨none, [.int32 8, .null]⟩] := by
  refine yields_marks _ _ _ (fun _ l r => sqlEq (firstColumn l) (firstColumn r)) inProbed
    [⟨none, [.int32 7]⟩, ⟨none, [.int32 8]⟩] nullAndSeven (by decide) (by simp [inProbed])
    (fun _ _ _ _ _ _ => rfl) (.probed rfl (.inr ⟨rfl, rfl⟩) (fun l _ => ⟨_, rfl, fun _ _ => rfl⟩)
      ⟨fun v => ⟨_, rfl, .refl _⟩, ⟨_, rfl, .refl _⟩⟩)

end KiteSQL
