import KiteSQL.Execution.Aggregate
import KiteSQL.Lib.Iterate
import KiteSQL.Lib.StableSort
import KiteSQL.Types.Evaluator.Order

/-! The executor of aggregates over all rows. -/
namespace KiteSQL

open Iterate DataValue StableSort List Result

structure SimpleAgg where
  aggCalls : List AggCall
  input : List (Result Tuple)
  returned : Bool

section
variable [BinaryCreate] [Conversions] (eval : RowEval)

namespace SimpleAgg

def ofOperator (aggCalls : List AggCall) (input : List (Result Tuple)) : SimpleAgg :=
  ⟨aggCalls, input, false⟩

/-- The loop over the input. -/
def collect (aggCalls : List AggCall) : List (Result Tuple) → List Accumulator →
    Result (List Accumulator)
  | [], accs => .ok accs
  | item :: input, accs => do
    let tuple ← item
    collect aggCalls input (← updateAccumulators eval tuple accs aggCalls)

def aggregateRow (aggCalls : List AggCall) (input : List (Result Tuple)) : Result Tuple := do
  let accs ← collect eval aggCalls input (← createAccumulators aggCalls)
  writeAggregateOutput accs []

def nextTuple (it : SimpleAgg) : Result (Option Tuple × SimpleAgg) :=
  if it.returned then .ok (none, it)
  else do
    let output ← aggregateRow eval it.aggCalls it.input
    return (some output, { it with input := [], returned := true })

variable {eval} {aggCalls : List AggCall} {input : List (Result Tuple)} {rows : List Tuple}

theorem yields_iff : Yields (nextTuple eval) (ofOperator aggCalls input) rows ↔
    ∃ row, rows = [row] ∧ aggregateRow eval aggCalls input = .ok row := by
  constructor
  · intro h
    cases h with
    | done h =>
      obtain ⟨row, -, h⟩ := bind_eq_ok.mp h
      cases h
    | more h hrest =>
      obtain ⟨row, hrow, h⟩ := bind_eq_ok.mp h
      cases h
      cases hrest with
      | done => exact ⟨_, rfl, hrow⟩
      | more h => cases h
  · rintro ⟨row, rfl, h⟩
    refine .more (t := ⟨aggCalls, [], true⟩) ?_ (.done rfl)
    exact bind_eq_ok.mpr ⟨row, h, rfl⟩

end SimpleAgg

end

section
variable [BinaryCreate] {op : BinaryOperator} {m v : DataValue} {l values : List DataValue}

/-- The least or greatest of some values, from the one found so far on. -/
def minMaxOver (op : BinaryOperator) : DataValue → List DataValue → Result DataValue
  | result, [] => .ok result
  | result, value :: values =>
    if value.isNull then minMaxOver op result values
    else do
      if ← replaces op result value then minMaxOver op value values
      else minMaxOver op result values

theorem collect_minMax {eval : RowEval} {call : AggCall} {arg : Expression} {rows : List Tuple}
    {value : Tuple → DataValue} (hargs : call.args = [arg])
    (heval : ∀ row ∈ rows, eval arg row = .ok (value row)) (result : DataValue) :
    SimpleAgg.collect eval [call] (rows.map .ok) [.minMax result op] =
      (minMaxOver op result (rows.map value)).map fun r => [.minMax r op] := by
  induction rows generalizing result with
  | nil => rfl
  | cons row rows ih =>
    have ih := ih fun row h => heval row (mem_cons_of_mem _ h)
    have hupdate : updateAccumulators eval row [.minMax result op] [call] =
        (Accumulator.updateValue (.minMax result op) (value row)).map fun acc => [acc] := by
      simp only [updateAccumulators, hargs, heval row mem_cons_self, ok_bind]
      cases Accumulator.updateValue (.minMax result op) (value row) <;> rfl
    rw [map_cons, map_cons, SimpleAgg.collect, ok_bind, hupdate, minMaxOver,
      Accumulator.updateValue]
    cases hv : (value row).isNull with
    | true => exact ih result
    | false =>
      cases hb : replaces op result (value row) with
      | error e => rfl
      | ok b =>
        cases b with
        | true => exact ih (value row)
        | false => exact ih result

theorem minMaxOver_filter (result : DataValue) :
    minMaxOver op result values = minMaxOver op result (values.filter (!·.isNull)) := by
  induction values generalizing result with
  | nil => rfl
  | cons v values ih =>
    cases hv : v.isNull with
    | true =>
      rw [minMaxOver, if_pos hv, filter_cons_of_neg (by simp [hv])]
      exact ih result
    | false =>
      rw [filter_cons_of_pos (by simp [hv]), minMaxOver, minMaxOver, if_neg (by simp [hv]),
        if_neg (by simp [hv])]
      simp only [ih]

/-- The first value takes the place of the NULL that the scan starts with. -/
theorem minMaxOver_first (hm : m.isNull = false) :
    minMaxOver op .null (m :: l) = minMaxOver op m l := by
  rw [minMaxOver, if_neg (by simp [hm])]
  rfl

/-- Values that the operator orders as a preorder does, with ties among equal values only. -/
structure Compared (op : BinaryOperator) (le : DataValue → DataValue → Bool)
    (values : List DataValue) : Prop where
  preorders : Preorders le
  notNull : ∀ v ∈ values, v.isNull = false
  replaces : ∀ v ∈ values, ∀ w ∈ values, replaces op v w = .ok (!le v w)
  ties : ∀ v ∈ values, ∀ w ∈ values, ties le v w = eq v w

theorem Compared.minMaxOver_eq {le : DataValue → DataValue → Bool} (h : Compared op le values)
    (hm : m ∈ values) (hl : ∀ v ∈ l, v ∈ values) : minMaxOver op m l = .ok (least le m l) := by
  induction l generalizing m with
  | nil => rfl
  | cons x l ih =>
    have hx := hl x mem_cons_self
    have hl' : ∀ v ∈ l, v ∈ values := fun v hv => hl v (mem_cons_of_mem _ hv)
    rw [minMaxOver, if_neg (by simp [h.notNull x hx]), h.replaces m hm x hx, ok_bind, least]
    cases le m x with
    | true => exact ih hm hl'
    | false => exact ih hx hl'

/-- A value that cannot be compared makes every scan of two or more values fail. -/
theorem minMaxOver_fails {readable : DataValue → Prop} (hnull : ∀ v ∈ m :: l, v.isNull = false)
    (hfail : ∀ v ∈ m :: l, ∀ w ∈ m :: l, ¬ (readable v ∧ readable w) → ∀ b, replaces op v w ≠ .ok b)
    (hl : l ≠ []) (hbad : ∃ v ∈ m :: l, ¬ readable v) (r : DataValue) :
    minMaxOver op m l ≠ .ok r := by
  induction l generalizing m with
  | nil => exact absurd rfl hl
  | cons x l ih =>
    rw [minMaxOver, if_neg (by simp [hnull x (by simp)])]
    intro h
    obtain ⟨b, hb, h⟩ := bind_eq_ok.mp h
    by_cases hread : readable m ∧ readable x
    · obtain ⟨v, hv, hbad⟩ := hbad
      have hvl : v ∈ l := by
        simp only [mem_cons] at hv
        rcases hv with rfl | rfl | hv
        · exact absurd hread.1 hbad
        · exact absurd hread.2 hbad
        · exact hv
      have hne : l ≠ [] := ne_nil_of_mem hvl
      have hsub : ∀ y, y = m ∨ y = x → ∀ z ∈ y :: l, z ∈ m :: x :: l := by
        rintro y (rfl | rfl) z hz <;> simp only [mem_cons] at hz ⊢ <;> tauto
      have hstep : ∀ y, y = m ∨ y = x → minMaxOver op y l ≠ .ok r := by
        intro y hy
        refine ih (fun z hz => hnull z (hsub y hy z hz))
          (fun z hz z' hz' => hfail z (hsub y hy z hz) z' (hsub y hy z' hz')) hne
          ⟨v, mem_cons_of_mem _ hvl, hbad⟩
      cases b with
      | true => exact hstep x (.inr rfl) h
      | false => exact hstep m (.inl rfl) h
    · exact hfail m (by simp) x (by simp) hread b hb

end

end KiteSQL
