import KiteSQL.Expression.Syntax
import KiteSQL.Storage.IndexIter
import KiteSQL.Types.Cast

/-! The ranges of an index column and how conjunctions and disjunctions merge them. -/
namespace KiteSQL

namespace DataValue

mutual

def hasParameter : DataValue → Bool
  | .parameter _ _ => true
  | .tuple values => anyParameter values
  | _ => false

def anyParameter : List DataValue → Bool
  | [] => false
  | value :: values => value.hasParameter || anyParameter values

end

variable [Conversions]

mutual

/-- `params` pairs the numbers of the parameters with their values. -/
def bindParameters (params : List (Nat × DataValue)) : DataValue → Result DataValue
  | .parameter id ty =>
    match params.lookup id with
    | some value => value.cast ty
    | none => .error (.error (.parametersNotFound s!"${id}"))
  | .tuple values => .tuple <$> bindAll params values
  | value => .ok value

def bindAll (params : List (Nat × DataValue)) : List DataValue → Result (List DataValue)
  | [] => .ok []
  | value :: values => do
    return (← value.bindParameters params) :: (← bindAll params values)

end

end DataValue

namespace Bound

def hasParameter : Bound DataValue → Bool
  | .included value | .excluded value => value.hasParameter
  | .unbounded => false

def bindParameters [Conversions] (params : List (Nat × DataValue)) :
    Bound DataValue → Result (Bound DataValue)
  | .included value => .included <$> value.bindParameters params
  | .excluded value => .excluded <$> value.bindParameters params
  | .unbounded => .ok .unbounded

/-- NULL is the greatest value. -/
def rangeValueCmp (left right : DataValue) (leftIsUpper rightIsUpper : Bool) : Option Ordering :=
  match left, right with
  | .null, .null => some .eq
  | .null, _ => some .gt
  | _, .null => some .lt
  | .tuple left, .tuple right => DataValue.tuplePartialCmp left right leftIsUpper rightIsUpper
  | left, right => left.partialCmp right

def isMinThenReverse (isMin : Bool) (order : Ordering) : Ordering :=
  if isMin then order else order.swap

def boundCompared (left right : Bound DataValue) (leftIsUpper rightIsUpper : Bool) :
    Option Ordering :=
  let isMin := !leftIsUpper && !rightIsUpper
  match left, right with
  | .unbounded, .unbounded => some .eq
  | .unbounded, _ => some (isMinThenReverse (!leftIsUpper) .lt)
  | _, .unbounded => some (isMinThenReverse (!rightIsUpper) .gt)
  | .included left, .included right => rangeValueCmp left right leftIsUpper rightIsUpper
  | .included left, .excluded right =>
    (rangeValueCmp left right leftIsUpper (!rightIsUpper)).map
      (·.then (isMinThenReverse isMin .lt))
  | .excluded left, .excluded right => rangeValueCmp left right (!leftIsUpper) (!rightIsUpper)
  | .excluded left, .included right =>
    (rangeValueCmp left right (!leftIsUpper) rightIsUpper).map
      (·.then (isMinThenReverse isMin .gt))

def processExcludeBoundWithEq (bound : Bound DataValue) (eq : DataValue) (op : BinaryOperator) :
    Bound DataValue :=
  match bound with
  | .excluded value => if value.eq eq && op = .or then .included value else .excluded value
  | bound => bound

end Bound

open KiteSQL.Bound

namespace Range

mutual

def hasParameter : Range → Bool
  | .scope min max => min.hasParameter || max.hasParameter
  | .eq value => value.hasParameter
  | .sortedRanges ranges => anyParameter ranges
  | .dummy => false

def anyParameter : List Range → Bool
  | [] => false
  | range :: ranges => range.hasParameter || anyParameter ranges

end

mutual

def bindParameters [Conversions] (params : List (Nat × DataValue)) : Range → Result Range
  | .scope min max => do return .scope (← min.bindParameters params) (← max.bindParameters params)
  | .eq value => .eq <$> value.bindParameters params
  | .sortedRanges ranges => .sortedRanges <$> bindAll params ranges
  | .dummy => .ok .dummy

def bindAll [Conversions] (params : List (Nat × DataValue)) : List Range → Result (List Range)
  | [] => .ok []
  | range :: ranges => do
    return (← range.bindParameters params) :: (← bindAll params ranges)

end

mutual

def onlyEq : Range → Bool
  | .eq _ => true
  | .sortedRanges ranges => allOnlyEq ranges
  | _ => false

def allOnlyEq : List Range → Bool
  | [] => true
  | range :: ranges => range.onlyEq && allOnlyEq ranges

end

def ranges2range : List Range → Range
  | [] => .dummy
  | [range] => range
  | ranges => .sortedRanges ranges

def andScopeMerge (leftMin leftMax rightMin rightMax : Bound DataValue) :
    Except (Range × Range) Range :=
  match boundCompared leftMin rightMin false false, boundCompared leftMax rightMax true true with
  | some minOrder, some maxOrder =>
    let min := if minOrder = .gt then leftMin else rightMin
    let max := if maxOrder = .lt then leftMax else rightMax
    match boundCompared min max false true with
    | some .gt => .ok .dummy
    | some .eq =>
      match min with
      | .included value => .ok (.eq value)
      | .excluded _ => .ok .dummy
      | .unbounded => .ok (.scope .unbounded .unbounded)
    | _ => .ok (.scope min max)
  | _, _ => .error (.scope leftMin leftMax, .scope rightMin rightMax)

def orScopeMerge (leftMin leftMax rightMin rightMax : Bound DataValue) : Range :=
  if boundCompared leftMax rightMin true false = some .lt ∨
      boundCompared rightMax leftMin true false = some .lt then
    if boundCompared leftMin rightMin false false = some .lt then
      .sortedRanges [.scope leftMin leftMax, .scope rightMin rightMax]
    else .sortedRanges [.scope rightMin rightMax, .scope leftMin leftMax]
  else
    let min := if boundCompared leftMin rightMin false false = some .lt then leftMin else rightMin
    let max := if boundCompared leftMax rightMax true true = some .gt then leftMax else rightMax
    match boundCompared min max false true with
    | some .eq =>
      match min with
      | .included value => .eq value
      | .excluded _ => .dummy
      | .unbounded => .scope .unbounded .unbounded
    | _ => .scope min max

/-- `c1 > 1 ? c1 = 1`. -/
def scopeEqMerge (op : BinaryOperator) (min max : Bound DataValue) (eq : DataValue) :
    Except (Range × Range) Range :=
  if min.hasParameter || max.hasParameter || eq.hasParameter then
    .error (.scope min max, .eq eq)
  else
    match op with
    | .and =>
      let unknown := match min with
        | .unbounded => Ordering.gt
        | _ => .lt
      if (boundCompared (.included eq) min false false).getD unknown = .lt ∨
          boundCompared (.included eq) max true true = some .gt then .ok .dummy
      else .ok (.eq eq)
    | .or =>
      if eq.isNull then
        match min with
        | .excluded _ => .ok (.sortedRanges [.eq eq, .scope min max])
        | _ => .ok (.scope min max)
      else
        match boundCompared (.excluded eq) min false false with
        | some .lt => .ok (.sortedRanges [.eq eq, .scope min max])
        | some .eq => .ok (.scope (processExcludeBoundWithEq min eq op) max)
        | _ =>
          match boundCompared (.excluded eq) max true true with
          | some .gt => .ok (.sortedRanges [.scope min max, .eq eq])
          | some .eq => .ok (.scope min (processExcludeBoundWithEq max eq op))
          | _ => .ok (.scope min max)
    | _ => .error (.scope min max, .eq eq)

/-- `c1 = 1 ? c1 = 2`. -/
def eqEqMerge (op : BinaryOperator) (left right : DataValue) : Except (Range × Range) Range :=
  if left.eq right && (op = .and || op = .or) then .ok (.eq left)
  else if left.hasParameter || right.hasParameter then .error (.eq left, .eq right)
  else
    match op with
    | .and => .ok .dummy
    | .or =>
      if left.partialCmp right = some .gt then .ok (.sortedRanges [.eq right, .eq left])
      else .ok (.sortedRanges [.eq left, .eq right])
    | _ => .error (.eq left, .eq right)

def scopeScopeMerge (op : BinaryOperator) (leftMin leftMax rightMin rightMax : Bound DataValue) :
    Except (Range × Range) Range :=
  match op with
  | .and => andScopeMerge leftMin leftMax rightMin rightMax
  | .or =>
    if leftMin.hasParameter || leftMax.hasParameter || rightMin.hasParameter ||
        rightMax.hasParameter then
      .error (.scope leftMin leftMax, .scope rightMin rightMax)
    else .ok (orScopeMerge leftMin leftMax rightMin rightMax)
  | _ => .error (.scope leftMin leftMax, .scope rightMin rightMax)

def dummyMerge (op : BinaryOperator) (range : Range) (refused : Range × Range) :
    Except (Range × Range) Range :=
  match op with
  | .and => .ok .dummy
  | .or => .ok range
  | _ => .error refused

/-- `merge_binary` on ranges that are not lists of ranges; `none` on lists. -/
def mergeFlat (op : BinaryOperator) : Range → Range → Option (Except (Range × Range) Range)
  | .dummy, range => some (dummyMerge op range (.dummy, range))
  | range, .dummy => some (dummyMerge op range (range, .dummy))
  | .scope leftMin leftMax, .scope rightMin rightMax =>
    some (scopeScopeMerge op leftMin leftMax rightMin rightMax)
  | .scope min max, .eq value => some (scopeEqMerge op min max value)
  | .eq value, .scope min max => some ((scopeEqMerge op min max value).mapError Prod.swap)
  | .eq left, .eq right => some (eqEqMerge op left right)
  | _, _ => none

/-- What `extract_merge_ranges` does with the range it carries at one member of the list. -/
inductive MergeStep where
  /-- The carried range goes in front of the member and the loop ends. -/
  | insert
  /-- The member is passed. -/
  | skip
  /-- The member leaves the list and a range, if any, is carried on. -/
  | carry (range : Option Range)
  /-- The list is given up. -/
  | give (ranges : List Range)
  /-- The member is merged into the list that was carried. -/
  | restart (ranges : List Range)
  /-- Nothing is carried any more. -/
  | stop

/-- The carried range becomes what the merge gives, or nothing. -/
def MergeStep.merge (op : BinaryOperator) (left right : Range) : MergeStep :=
  .carry ((mergeFlat op left right).bind Except.toOption)

def mergeStep (op : BinaryOperator) : Option Range → Range → MergeStep
  | some (.scope leftMin leftMax), .scope rightMin rightMax =>
    if boundCompared leftMax rightMin true false = some .lt then .insert
    else if boundCompared leftMin rightMax false true = some .gt then .skip
    else .merge op (.scope leftMin leftMax) (.scope rightMin rightMax)
  | some (.scope min max), .eq value =>
    if boundCompared max (.included value) true false = some .lt then .insert
    else if ((boundCompared min (.included value) false true).map Ordering.isGT).getD (op = .or) then
      .skip
    else if value.isNull then .carry (some (.scope min max))
    else .merge op (.scope min max) (.eq value)
  | some (.eq left), .eq right =>
    if left.partialCmp right = some .lt then .insert
    else if left.partialCmp right = some .gt then .skip
    else .merge op (.eq left) (.eq right)
  | some (.eq value), .scope min max =>
    if ((boundCompared (.included value) min true false).map Ordering.isLT).getD (op = .or) then
      .insert
    else if boundCompared (.included value) max false true = some .gt then .skip
    else if value.isNull then .carry (some (.scope min max))
    else .merge op (.eq value) (.scope min max)
  | some .dummy, range =>
    match op with
    | .and => .give []
    | .or => .carry (some range)
    | _ => .carry none
  | some (.sortedRanges ranges), _ => .restart ranges
  | none, _ => .stop
  | _, _ => .give []

/-- `extract_merge_ranges` over the members behind `idx`, where `passed` has the ones before it; the
result has the new value of `idx`. -/
def extractMergeRanges (op : BinaryOperator) :
    Nat → Option Range → List Range → List Range → Result (List Range × Nat)
  | 0, _, _, _ => .error .divergence
  | _ + 1, binary, passed, [] => .ok (passed ++ binary.toList, passed.length)
  | fuel + 1, binary, passed, range :: ranges =>
    match mergeStep op binary range with
    | .insert => .ok (passed ++ binary.toList ++ range :: ranges, passed.length)
    | .skip => extractMergeRanges op fuel binary (passed ++ [range]) ranges
    | .carry binary => extractMergeRanges op fuel binary passed ranges
    | .give ranges => .ok (ranges, passed.length)
    | .restart carried => do
      let (merged, _) ← extractMergeRanges op fuel (some range) [] carried
      return (merged, passed.length)
    | .stop => .ok (passed ++ range :: ranges, passed.length)

/-- Enough for a pass over the members and for the lists that merges of two of them give. -/
def mergeFuel (ranges : List Range) : Nat := 4 * ranges.length + 8

def mergeInto (op : BinaryOperator) (range : Range) (ranges : List Range) : Result Range := do
  let (merged, _) ← extractMergeRanges op (mergeFuel ranges) (some range) [] ranges
  return ranges2range merged

/-- The members of the first list one after the other, each from the place that the last one
reached, also where the list has become shorter since. -/
def mergeLists (op : BinaryOperator) : List Range → List Range → Nat → Result (List Range)
  | [], right, _ => .ok right
  | range :: left, right, idx => do
    let (right, reached) ← extractMergeRanges op (mergeFuel right) (some range) (right.take idx)
      (right.drop idx)
    mergeLists op left right (max idx reached)

def mergeBinary (op : BinaryOperator) (left right : Range) :
    Result (Except (Range × Range) Range) :=
  match mergeFlat op left right with
  | some merged => .ok merged
  | none =>
    if left.hasParameter || right.hasParameter then .ok (.error (left, right))
    else
      match left, right with
      | .sortedRanges left, .sortedRanges right =>
        (.ok ∘ ranges2range) <$> mergeLists op left right 0
      | .sortedRanges ranges, range | range, .sortedRanges ranges =>
        .ok <$> mergeInto op range ranges
      | left, right => .ok (.error (left, right))

/-- The values that a range of equalities allows, one after the other. -/
def eqItems : Range → Option (List DataValue)
  | .eq value => some [value]
  | .sortedRanges ranges => ranges.mapM fun
    | .eq value => some value
    | _ => none
  | _ => none

end Range

inductive TreeNode where
  | node (value : Option DataValue) (children : List TreeNode)

namespace TreeNode

def children : TreeNode → List TreeNode
  | .node _ children => children

mutual

/-- The values on every path from the node to a node without children. -/
def enumeration (path : List DataValue) : TreeNode → List (List DataValue)
  | .node value children =>
    (if value.isNone && children.isEmpty then [path] else []) ++ enumerateAll path children

def enumerateNode (path : List DataValue) : TreeNode → List (List DataValue)
  | .node value children =>
    if children.isEmpty then [path ++ value.toList]
    else enumerateAll (path ++ value.toList) children

def enumerateAll (path : List DataValue) : List TreeNode → List (List DataValue)
  | [] => []
  | tree :: nodes => enumerateNode path tree ++ enumerateAll path nodes

end

end TreeNode

namespace Range

def buildTree : List Range → Option TreeNode
  | [] => some (.node none [])
  | range :: ranges => do
    let values ← range.eqItems
    let children ← values.mapM fun value => do
      let subtree ← buildTree ranges
      return .node (some value)
        (if !subtree.children.isEmpty || ranges.isEmpty then [subtree] else [])
    return .node none children

def mergeValueOnBound (tuple : List DataValue) : Bound DataValue → Bound DataValue
  | .included value => .included (.tuple (tuple ++ [value]))
  | .excluded value => .excluded (.tuple (tuple ++ [value]))
  | .unbounded => if tuple.isEmpty then .unbounded else .included (.tuple tuple)

mutual

def collectTupleRange (tuple : List DataValue) : Range → List Range
  | .scope min max => [.scope (mergeValueOnBound tuple min) (mergeValueOnBound tuple max)]
  | .eq value => [.eq (.tuple (tuple ++ [value]))]
  | .dummy => [.dummy]
  | .sortedRanges ranges => collectAll tuple ranges

def collectAll (tuple : List DataValue) : List Range → List Range
  | [] => []
  | range :: ranges => range.collectTupleRange tuple ++ collectAll tuple ranges

end

/-- The range of a column behind columns that the ranges `eqs` fix to values. -/
def combiningEqs (range : Range) (eqs : List Range) : Option Range := do
  let node ← buildTree eqs
  return ranges2range ((node.enumeration []).flatMap fun tuple => range.collectTupleRange tuple)

end Range

end KiteSQL
