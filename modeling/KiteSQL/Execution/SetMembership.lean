import KiteSQL.Execution.StreamAggRows
import KiteSQL.Lib.Matching

/-! The executor of EXCEPT and INTERSECT. -/
namespace KiteSQL

open Iterate Grouping DataValue Matching Tuple List

inductive SetMembershipKind where
  | except
  | intersect
  deriving DecidableEq

namespace Tuple

/-- The equality of `Option<TupleId>`. -/
def pkEq : Option DataValue → Option DataValue → Bool
  | none, none => true
  | some x, some y => DataValue.eq x y
  | _, _ => false

/-- The derived equality of rows, by which they are keys of a hash map. -/
def eqTest : KeyedMap.KeyTest Tuple where
  same a b := pkEq a.pk b.pk && eqList a.values b.values
  refl a := by
    have hpk : pkEq a.pk a.pk = true := by
      cases a.pk with
      | none => rfl
      | some x => exact eq_self x
    rw [hpk, Bool.true_and]
    exact listTest.refl a.values
  congr a b c h := by
    rw [Bool.and_eq_true] at h
    have hpk : pkEq a.pk c.pk = pkEq b.pk c.pk := by
      have h := h.1
      generalize a.pk = x at h ⊢
      generalize b.pk = y at h ⊢
      cases x <;> cases y <;> cases c.pk <;> simp_all [pkEq]
      exact eq_congr _ _ _ h
    have hvalues : eqList a.values c.values = eqList b.values c.values :=
      listTest.congr a.values b.values c.values h.2
    rw [hpk, hvalues]

theorem eqTest_values {a b : Tuple} (h : eqTest.same a b = true) :
    listTest.same a.values b.values = true :=
  (Bool.and_eq_true _ _ ▸ h : _ ∧ _).2

end Tuple

structure SetMembership where
  kind : SetMembershipKind
  leftInput : List (Result Tuple)
  rightInput : List (Result Tuple)
  rightCounts : List (Tuple × Nat)
  built : Bool

namespace SetMembership

def ofInputs (kind : SetMembershipKind) (leftInput rightInput : List (Result Tuple)) :
    SetMembership :=
  ⟨kind, leftInput, rightInput, [], false⟩

/-- The loop over the right input. -/
def build : List (Result Tuple) → List (Tuple × Nat) → Result (List (Tuple × Nat))
  | [], counts => .ok counts
  | item :: input, counts => do
    build input (KeyedMap.upsert Tuple.eqTest 1 (· + 1) counts (← item))

def consumeRightMatch (tuple : Tuple) (counts : List (Tuple × Nat)) :
    Bool × List (Tuple × Nat) :=
  match KeyedMap.lookup Tuple.eqTest counts tuple with
  | some count =>
    if 0 < count then (true, KeyedMap.modify Tuple.eqTest (· - 1) counts tuple)
    else (false, counts)
  | none => (false, counts)

def shouldEmit : SetMembershipKind → Bool → Bool
  | .except, isMatched => !isMatched
  | .intersect, isMatched => isMatched

/-- The loop over the left input. -/
def loop (kind : SetMembershipKind) : List (Result Tuple) → List (Tuple × Nat) →
    Result (Option Tuple × SetMembership)
  | [], counts => .ok (none, ⟨kind, [], [], counts, true⟩)
  | item :: input, counts => do
    let tuple ← item
    let (isMatched, counts) := consumeRightMatch tuple counts
    if shouldEmit kind isMatched then return (some tuple, ⟨kind, input, [], counts, true⟩)
    else loop kind input counts

def nextTuple (it : SetMembership) : Result (Option Tuple × SetMembership) := do
  let counts ← if it.built then pure it.rightCounts else build it.rightInput it.rightCounts
  loop it.kind it.leftInput counts

variable {kind : SetMembershipKind} {left right bag : List Tuple} {counts : List (Tuple × Nat)}

theorem build_counts (right : List Tuple) (h : Counts eqTest counts bag) :
    ∃ counts', build (right.map .ok) counts = .ok counts' ∧
      Counts eqTest counts' (bag ++ right) := by
  induction right generalizing counts bag with
  | nil => exact ⟨counts, rfl, by rwa [append_nil]⟩
  | cons tuple right ih =>
    obtain ⟨counts', hbuild, hcounts⟩ := ih (h.upsert tuple)
    rw [append_assoc] at hcounts
    exact ⟨counts', hbuild, hcounts⟩

theorem consumeRightMatch_spec (tuple : Tuple) (h : Counts eqTest counts bag) :
    ∃ counts', consumeRightMatch tuple counts = (bag.any (eqTest.same tuple), counts') ∧
      Counts eqTest counts' (if bag.any (eqTest.same tuple) then
        bag.eraseP (eqTest.same tuple) else bag) := by
  have hany := h.any_eq tuple
  unfold consumeRightMatch
  cases hl : KeyedMap.lookup eqTest counts tuple with
  | none =>
    rw [hl, Option.getD_none] at hany
    rw [hany]
    exact ⟨counts, rfl, h⟩
  | some count =>
    rw [hl, Option.getD_some] at hany
    dsimp only
    by_cases hpos : 0 < count
    · rw [if_pos hpos]
      have htrue : bag.any (eqTest.same tuple) = true := by
        rw [hany]
        exact decide_eq_true hpos
      rw [htrue, if_pos rfl]
      exact ⟨_, rfl, h.modify htrue⟩
    · rw [if_neg hpos]
      have hfalse : bag.any (eqTest.same tuple) = false := by
        rw [hany]
        exact decide_eq_false hpos
      rw [hfalse, if_neg (by simp)]
      exact ⟨counts, rfl, h⟩

/-- The rows that are returned. -/
def select (kind : SetMembershipKind) (outcome : Outcome Tuple) : List Tuple :=
  match kind with
  | .except => outcome.unmatched
  | .intersect => outcome.matched

/-- The left rows that are returned once the right ones have been counted. -/
theorem yields_built (h : Counts eqTest counts bag) :
    Yields nextTuple ⟨kind, left.map .ok, [], counts, true⟩
      (select kind (pairOff eqTest left bag)) := by
  induction left generalizing counts bag with
  | nil => cases kind <;> exact .done rfl
  | cons tuple left ih =>
    obtain ⟨counts', hconsume, hcounts⟩ := consumeRightMatch_spec tuple h
    have hnext : nextTuple ⟨kind, (tuple :: left).map .ok, [], counts, true⟩ =
        if shouldEmit kind (bag.any (eqTest.same tuple)) then
          .ok (some tuple, ⟨kind, left.map .ok, [], counts', true⟩)
        else nextTuple ⟨kind, left.map .ok, [], counts', true⟩ := by
      rw [nextTuple]
      dsimp only
      rw [if_pos rfl, map_cons]
      simp only [pure_bind, loop, Result.ok_bind, hconsume]
      rfl
    have hrest := ih hcounts
    cases hany : bag.any (eqTest.same tuple) with
    | true =>
      rw [hany, if_pos rfl] at hrest
      rw [hany] at hnext
      rw [pairOff_of_any hany]
      cases kind with
      | except => exact hrest.of_next_eq hnext
      | intersect => exact .more hnext hrest
    | false =>
      rw [hany, if_neg (by simp)] at hrest
      rw [hany] at hnext
      rw [pairOff_of_not_any hany]
      cases kind with
      | except => exact .more hnext hrest
      | intersect => exact hrest.of_next_eq hnext

theorem yields_select (kind : SetMembershipKind) (left right : List Tuple) :
    Yields nextTuple (ofInputs kind (left.map .ok) (right.map .ok))
      (select kind (pairOff eqTest left right)) := by
  obtain ⟨counts, hbuild, hcounts⟩ := build_counts right (counts_nil eqTest)
  refine (yields_built hcounts).of_next_eq ?_
  rw [nextTuple, nextTuple, ofInputs]
  dsimp only
  rw [if_neg (by simp), if_pos rfl, hbuild]
  rfl

/-- EXCEPT ALL and INTERSECT ALL divide the left rows between them. -/
theorem divides_left (left right : List Tuple) : ∃ excepted intersected,
    Yields nextTuple (ofInputs .except (left.map .ok) (right.map .ok)) excepted ∧
    Yields nextTuple (ofInputs .intersect (left.map .ok) (right.map .ok)) intersected ∧
    (excepted ++ intersected).Perm left :=
  ⟨_, _, yields_select .except left right, yields_select .intersect left right,
    pairOff_perm eqTest left right⟩

/-- How often EXCEPT ALL and INTERSECT ALL return a row that the inputs have so many times. -/
def count : SetMembershipKind → Nat → Nat → Nat
  | .except, m, n => m - n
  | .intersect, m, n => min m n

/-- How often EXCEPT and INTERSECT do. -/
def distinctCount : SetMembershipKind → Nat → Nat → Nat
  | .except, m, n => if 0 < m ∧ n = 0 then 1 else 0
  | .intersect, m, n => if 0 < m ∧ 0 < n then 1 else 0

end SetMembership

/-- How often a list of column values occurs. -/
def multiplicity (rows : List Tuple) (values : List DataValue) : Nat :=
  rows.countP fun row => eqList row.values values

/-- The executor that the optimizer chose for a distinct. -/
inductive DistinctExecutor where
  | hash (intoIter : GroupMap → GroupMap)
  | stream

namespace DistinctExecutor

def isHash : DistinctExecutor → Bool
  | .hash _ => true
  | .stream => false

section
variable [BinaryCreate] [Conversions]

/-- The rows that a distinct over some rows returns. -/
def Returns (eval : RowEval) (exprs : List Expression) (rows out : List Tuple) :
    DistinctExecutor → Prop
  | .hash intoIter => Yields (HashAgg.nextTuple eval intoIter) ⟨[], exprs, rows.map .ok, none⟩ out
  | .stream => Yields (StreamDistinct.nextTuple eval) ⟨exprs, none, rows.map .ok⟩ out

/-- The iterator of a hash map passes each group once, and a streaming distinct needs rows that come
group by group. -/
def Applies (rows : List Tuple) : DistinctExecutor → Prop
  | .hash intoIter => ∀ map, (intoIter map).Perm map
  | .stream => Grouping.Contiguous listTest Tuple.values rows

theorem groupRow_nil (eval : RowEval) (group : List DataValue × List Tuple) :
    groupRow eval [] group = .ok ⟨none, group.1⟩ := by
  have hfold : ∀ rows : List Tuple,
      rows.foldlM (fun accs row => updateAccumulators eval row accs []) [] = .ok [] := by
    intro rows
    induction rows with
    | nil => rfl
    | cons row rows ih => exact ih
  have haggregate : aggregate eval [] group.2 = .ok [] := hfold group.2
  rw [groupRow, haggregate]
  rfl

/-- What a distinct returns of each list of column values; a hash aggregate returns no keys. -/
theorem returns_once {eval : RowEval} {exprs : List Expression} {rows : List Tuple}
    (executor : DistinctExecutor) (happlies : executor.Applies rows)
    (hkeys : ∀ row ∈ rows, groupKeysOf eval exprs row = .ok row.values) :
    ∃ out, executor.Returns eval exprs rows out ∧
      (∀ k, multiplicity out k = if 0 < multiplicity rows k then 1 else 0) ∧
      (executor.isHash = true → ∀ row ∈ out, row.pk = none) := by
  have hfirsts : ∀ out : List Tuple,
      (out.map values).Perm ((groups listTest values rows).map Prod.fst) →
      ∀ k, multiplicity out k = if 0 < multiplicity rows k then 1 else 0 := by
    intro out hperm k
    have hle := countP_le_one_of_pairwise (distinct_groups listTest values rows) k
    have hcount : multiplicity out k =
        (groups listTest values rows).countP fun g => listTest.same g.1 k := by
      have := hperm.countP_eq fun v => eqList v k
      rw [countP_map, countP_map] at this
      exact this
    by_cases hpos : 0 < multiplicity rows k
    · rw [if_pos hpos]
      obtain ⟨row, hrow, hk⟩ := countP_pos_iff.mp hpos
      obtain ⟨g, hg, hsame⟩ := exists_group listTest values hrow
      have hgk : listTest.same g.1 k = true := by
        rw [listTest.congr _ _ k hsame]
        exact hk
      have hsome : 0 < (groups listTest values rows).countP fun g => listTest.same g.1 k :=
        countP_pos_iff.mpr ⟨g, hg, hgk⟩
      omega
    · rw [if_neg hpos, hcount]
      refine countP_eq_zero.mpr fun g hg hgk => hpos ?_
      obtain ⟨row, hrow, hkey⟩ := key_of_mem_groups hg
      exact countP_pos_iff.mpr ⟨row, hrow, hkey ▸ hgk⟩
  cases executor with
  | hash intoIter =>
    obtain ⟨out, hout⟩ := Traverse.exists_mapM_iff.mpr fun g
      (_ : g ∈ groups listTest values rows) => ⟨_, groupRow_nil eval g⟩
    obtain rfl := Traverse.mapM_eq_map (g := fun g => (⟨none, g.1⟩ : Tuple)) hout
      fun g row h => Except.ok.inj ((groupRow_nil eval g).symm.trans h)
    obtain ⟨out', hperm, hyields⟩ := HashAgg.yields_groups happlies hkeys hout
    have hvalues := hperm.map values
    rw [map_map] at hvalues
    refine ⟨out', hyields, hfirsts out' hvalues, fun _ row hrow => ?_⟩
    obtain ⟨g, -, rfl⟩ := mem_map.mp (hperm.subset hrow)
    rfl
  | stream =>
    obtain ⟨out, hyields, hvalues⟩ := StreamDistinct.yields_runs hkeys
    rw [← groups_eq_runs happlies] at hvalues
    exact ⟨out, hyields, hfirsts out (hvalues ▸ Perm.refl _), fun h => by cases h⟩

end

end DistinctExecutor

namespace SetMembership

variable [BinaryCreate] [Conversions]

/-- EXCEPT ALL and INTERSECT ALL return each list of column values as often as they should exactly
if none occurs with one hidden key more often on the left and with another more often on the right;
EXCEPT and INTERSECT do exactly if the distinct rows of both sides with the same values have the
same hidden key, as rows of hash aggregates have. -/
theorem multiplicity_iff (kind : SetMembershipKind) (left right : List Tuple) :
    (∃ out, Yields nextTuple (ofInputs kind (left.map .ok) (right.map .ok)) out ∧
      ((∀ k, multiplicity out k = count kind (multiplicity left k) (multiplicity right k)) ↔
        OneSided Tuple.eqTest listTest Tuple.values left right)) ∧
    ∀ (eval : RowEval) (leftExprs rightExprs : List Expression)
      (leftDistinct rightDistinct : DistinctExecutor),
      leftDistinct.Applies left → rightDistinct.Applies right →
      (∀ row ∈ left, groupKeysOf eval leftExprs row = .ok row.values) →
      (∀ row ∈ right, groupKeysOf eval rightExprs row = .ok row.values) →
      ∃ leftRows rightRows out, leftDistinct.Returns eval leftExprs left leftRows ∧
        rightDistinct.Returns eval rightExprs right rightRows ∧
        Yields nextTuple (ofInputs kind (leftRows.map .ok) (rightRows.map .ok)) out ∧
        ((∀ k, multiplicity out k =
            distinctCount kind (multiplicity left k) (multiplicity right k)) ↔
          ∀ l ∈ leftRows, ∀ r ∈ rightRows, eqList l.values r.values = true →
            Tuple.pkEq l.pk r.pk = true) ∧
        (leftDistinct.isHash = true → rightDistinct.isHash = true → ∀ k, multiplicity out k =
          distinctCount kind (multiplicity left k) (multiplicity right k)) := by
  have hcounts : ∀ left right : List Tuple,
      (∀ k, multiplicity (select kind (pairOff Tuple.eqTest left right)) k =
        count kind (multiplicity left k) (multiplicity right k)) ↔
      OneSided Tuple.eqTest listTest Tuple.values left right := by
    intro left right
    cases kind with
    | except => exact countP_unmatched_iff fun _ _ => Tuple.eqTest_values
    | intersect => exact countP_matched_iff fun _ _ => Tuple.eqTest_values
  refine ⟨⟨_, yields_select kind left right, hcounts left right⟩, ?_⟩
  intro eval leftExprs rightExprs leftDistinct rightDistinct hla hra hlk hrk
  obtain ⟨leftRows, hleft, hlm, hlpk⟩ := leftDistinct.returns_once hla hlk
  obtain ⟨rightRows, hright, hrm, hrpk⟩ := rightDistinct.returns_once hra hrk
  have hiff : (∀ k, multiplicity (select kind (pairOff Tuple.eqTest leftRows rightRows)) k =
        distinctCount kind (multiplicity left k) (multiplicity right k)) ↔
      ∀ l ∈ leftRows, ∀ r ∈ rightRows, eqList l.values r.values = true →
        Tuple.pkEq l.pk r.pk = true := by
    have hcount : ∀ k, count kind (multiplicity leftRows k) (multiplicity rightRows k) =
        distinctCount kind (multiplicity left k) (multiplicity right k) := by
      intro k
      rw [hlm, hrm]
      by_cases hm : 0 < multiplicity left k <;> by_cases hn : 0 < multiplicity right k <;>
        cases kind <;> simp_all [count, distinctCount, Nat.pos_iff_ne_zero]
    simp only [← hcount, hcounts]
    have hone : ∀ n : Nat, (if 0 < n then 1 else 0) ≤ 1 := by
      intro n
      split <;> omega
    rw [oneSided_iff_of_single (fun _ _ => Tuple.eqTest_values)
      (fun k => (hlm k).trans_le (hone _)) fun k => (hrm k).trans_le (hone _)]
    refine forall₂_congr fun l _ => forall₂_congr fun r _ => ?_
    constructor
    · intro h hvalues
      exact (Bool.and_eq_true _ _ ▸ h hvalues : _ ∧ _).1
    · intro h hvalues
      exact Bool.and_eq_true_iff.mpr ⟨h hvalues, hvalues⟩
  refine ⟨leftRows, rightRows, _, hleft, hright, yields_select kind leftRows rightRows, hiff, ?_⟩
  intro hl hr
  refine hiff.mpr fun l hl' r hr' _ => ?_
  rw [hlpk hl l hl', hrpk hr r hr']
  rfl

end SetMembership

/-- Two rows of a table with one column, read by its primary key. -/
def keyedRows : List Tuple := [⟨some (.int32 1), [.int32 1]⟩, ⟨some (.int32 2), [.int32 2]⟩]

/-- The row of a query without a table. -/
def plainRows : List Tuple := [⟨none, [.int32 1]⟩]

theorem SetMembership.multiplicity_keyed :
    (∃ out, Yields nextTuple (ofInputs .except (keyedRows.map .ok) (keyedRows.map .ok)) out ∧
      ∀ k, multiplicity out k = multiplicity keyedRows k - multiplicity keyedRows k) ∧
    ∃ leftRows rightRows out,
      @DistinctExecutor.Returns .integers .refusing atPosition [.constant (.uInt32 0)] keyedRows
        leftRows (.hash id) ∧
      @DistinctExecutor.Returns .integers .refusing atPosition [.constant (.uInt32 0)] plainRows
        rightRows (.hash id) ∧
      Yields nextTuple (ofInputs .except (leftRows.map .ok) (rightRows.map .ok)) out ∧
      ∀ k, multiplicity out k =
        distinctCount .except (multiplicity keyedRows k) (multiplicity plainRows k) := by
  constructor
  · obtain ⟨⟨out, hout, hiff⟩, -⟩ := @multiplicity_iff .integers .refusing .except keyedRows keyedRows
    exact ⟨out, hout, hiff.mpr fun a _ b _ _ h => le_refl _⟩
  · have hkeys : ∀ rows, rows = keyedRows ∨ rows = plainRows → ∀ row ∈ rows,
        groupKeysOf atPosition [.constant (.uInt32 0)] row = .ok row.values := by
      rintro rows (rfl | rfl) row hrow
      · simp only [keyedRows, List.mem_cons, List.not_mem_nil, or_false] at hrow
        rcases hrow with rfl | rfl <;> rfl
      · simp only [plainRows, List.mem_cons, List.not_mem_nil, or_false] at hrow
        subst hrow
        rfl
    obtain ⟨leftRows, rightRows, out, hl, hr, hout, -, hhash⟩ :=
      (@multiplicity_iff .integers .refusing .except keyedRows plainRows).2 atPosition
        [.constant (.uInt32 0)] [.constant (.uInt32 0)] (.hash id) (.hash id)
        (fun _ => .refl _) (fun _ => .refl _) (hkeys _ (.inl rfl)) (hkeys _ (.inr rfl))
    exact ⟨leftRows, rightRows, out, hl, hr, hout, hhash rfl rfl⟩

/-- A row read by its primary key and the same row of a query without a table, or of a sequential
scan. -/
theorem SetMembership.multiplicity_hidden_key :
    Yields nextTuple (ofInputs .except (keyedRows.map .ok) (plainRows.map .ok)) keyedRows ∧
      multiplicity keyedRows [.int32 1] ≠
        multiplicity keyedRows [.int32 1] - multiplicity plainRows [.int32 1] ∧
      Yields nextTuple (ofInputs .intersect (keyedRows.map .ok) (plainRows.map .ok)) [] ∧
      multiplicity [] [.int32 1] ≠
        min (multiplicity keyedRows [.int32 1]) (multiplicity plainRows [.int32 1]) :=
  ⟨.more rfl (.more rfl (.done rfl)), by decide, .done rfl, by decide⟩

end KiteSQL
