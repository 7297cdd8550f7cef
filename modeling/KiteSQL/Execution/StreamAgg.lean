import KiteSQL.Execution.Aggregate
import KiteSQL.Lib.Iterate

/-! The executors of grouped aggregates: over a hash map, and over rows that come group by group. -/
namespace KiteSQL

def groupKeysOf (eval : RowEval) (groupbyExprs : List Expression) (tuple : Tuple) :
    Result (List DataValue) := groupbyExprs.mapM fun expr => eval expr tuple

structure StreamAgg where
  aggCalls : List AggCall
  groupbyExprs : List Expression
  groupKeys : Option (List DataValue)
  accs : List Accumulator
  input : List (Result Tuple)

/-- The groups of the hash map, with the keys of their first rows. -/
abbrev GroupMap := List (List DataValue × List Accumulator)

structure HashAgg where
  aggCalls : List AggCall
  groupbyExprs : List Expression
  input : List (Result Tuple)
  output : Option GroupMap

structure StreamDistinct where
  groupbyExprs : List Expression
  lastKeys : Option Tuple
  input : List (Result Tuple)

section
variable [BinaryCreate] [Conversions] (eval : RowEval)

namespace StreamAgg

/-- The accumulators of a new group after its first row. -/
def startGroup (aggCalls : List AggCall) (tuple : Tuple) : Result (List Accumulator) := do
  updateAccumulators eval tuple (← createAccumulators aggCalls) aggCalls

/-- The loop over the input; a group is returned at the first row of the next one. -/
def loop (aggCalls : List AggCall) (groupbyExprs : List Expression) :
    List (Result Tuple) → Option (List DataValue) → List Accumulator →
      Result (Option Tuple × StreamAgg)
  | [], none, accs => .ok (none, ⟨aggCalls, groupbyExprs, none, accs, []⟩)
  | [], some groupKeys, accs => do
    return (some (← writeAggregateOutput accs groupKeys), ⟨aggCalls, groupbyExprs, none, [], []⟩)
  | item :: input, current, accs => do
    let tuple ← item
    let groupKeys ← groupKeysOf eval groupbyExprs tuple
    match current with
    | none => loop aggCalls groupbyExprs input (some groupKeys) (← startGroup eval aggCalls tuple)
    | some currentKeys =>
      if DataValue.eqList currentKeys groupKeys then
        loop aggCalls groupbyExprs input (some currentKeys)
          (← updateAccumulators eval tuple accs aggCalls)
      else
        let nextAccs ← startGroup eval aggCalls tuple
        return (some (← writeAggregateOutput accs currentKeys),
          ⟨aggCalls, groupbyExprs, some groupKeys, nextAccs, input⟩)

def nextTuple (it : StreamAgg) : Result (Option Tuple × StreamAgg) :=
  loop eval it.aggCalls it.groupbyExprs it.input it.groupKeys it.accs

end StreamAgg

namespace HashAgg

/-- A row is added to the accumulators of its group, or to those of a new one. -/
def updateGroup (aggCalls : List AggCall) (groupKeys : List DataValue) (tuple : Tuple) :
    GroupMap → Result GroupMap
  | [] => do return [(groupKeys, ← StreamAgg.startGroup eval aggCalls tuple)]
  | (keys, accs) :: groups =>
    if DataValue.eqList keys groupKeys then do
      return (keys, ← updateAccumulators eval tuple accs aggCalls) :: groups
    else do return (keys, accs) :: (← updateGroup aggCalls groupKeys tuple groups)

def collect (aggCalls : List AggCall) (groupbyExprs : List Expression) :
    List (Result Tuple) → GroupMap → Result GroupMap
  | [], groups => .ok groups
  | item :: input, groups => do
    let tuple ← item
    let groupKeys ← groupKeysOf eval groupbyExprs tuple
    collect aggCalls groupbyExprs input (← updateGroup eval aggCalls groupKeys tuple groups)

/-- The map is filled by the first call and returned in the order of its iterator. -/
def nextTuple (intoIter : GroupMap → GroupMap) (it : HashAgg) : Result (Option Tuple × HashAgg) := do
  let output ← match it.output with
    | some output => pure output
    | none => intoIter <$> collect eval it.aggCalls it.groupbyExprs it.input []
  match output with
  | [] => return (none, { it with input := [], output := some [] })
  | (groupKeys, accs) :: output =>
    return (some (← writeAggregateOutput accs groupKeys),
      { it with input := [], output := some output })

end HashAgg

end

namespace StreamDistinct

/-- `rewrite`: the values become those of the expressions. -/
def rewrite (eval : RowEval) (groupbyExprs : List Expression) (tuple : Tuple) : Result Tuple := do
  return { tuple with values := ← groupKeysOf eval groupbyExprs tuple }

def loop (eval : RowEval) (groupbyExprs : List Expression) :
    List (Result Tuple) → Option Tuple → Result (Option Tuple × StreamDistinct)
  | [], lastKeys => .ok (lastKeys, ⟨groupbyExprs, none, []⟩)
  | item :: input, lastKeys => do
    let keys ← rewrite eval groupbyExprs (← item)
    match lastKeys with
    | none => loop eval groupbyExprs input (some keys)
    | some last =>
      if DataValue.eqList last.values keys.values then loop eval groupbyExprs input (some last)
      else return (some last, ⟨groupbyExprs, some keys, input⟩)

def nextTuple (eval : RowEval) (it : StreamDistinct) : Result (Option Tuple × StreamDistinct) :=
  loop eval it.groupbyExprs it.input it.lastKeys

end StreamDistinct

end KiteSQL
