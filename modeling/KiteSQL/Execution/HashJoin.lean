import KiteSQL.Execution.RowBitmap
import KiteSQL.Lib.Iterate
import KiteSQL.Lib.KeyedMap
import KiteSQL.Planner.Plan
import KiteSQL.Types.Tuple
import KiteSQL.Types.ValueEq

/-! The hash join executor: a map of the left rows by their keys, probed by one right row after the
other. -/
namespace KiteSQL

/-- The left rows of one key, numbered in the order in which they were read. -/
structure BuildState where
  tuples : List (Nat × Tuple)
  isUsed : Bool
  hasFilted : Bool

abbrev BuildMap := List (List DataValue × BuildState)

structure ProbeState where
  isKeysHasNull : Bool
  probeTuple : Tuple
  index : Nat
  hasFiltered : Bool
  produced : Bool
  finished : Bool
  emittedUnmatched : Bool

structure LeftDropTuples where
  tuples : List (Nat × Tuple)
  hasFilted : Bool

structure LeftDropState where
  states : BuildMap
  current : Option LeftDropTuples

inductive JoinProbeStateImpl where
  | inner
  | left (leftSchemaLen rightSchemaLen : Nat) (bits : RowBitmap)
  | right (leftSchemaLen : Nat)
  | full (leftSchemaLen rightSchemaLen : Nat) (bits : RowBitmap)

/-- What a call of `probe_next` returns and leaves behind. -/
structure Probed where
  tuple : Option Tuple
  joinImpl : JoinProbeStateImpl
  probe : ProbeState
  buildState : Option BuildState

/-- Whether a pair of rows passes the filter of the join, if it has one. -/
def passes (positions : Nat → Nat) (filter : Option PlanExpression) (left right : Row) :
    Result Bool :=
  match filter with
  | none => .ok true
  | some filter => filter.keeps positions (left ++ right)

def fullRow (left right : Tuple) : Tuple := ⟨left.pk.or right.pk, left.values ++ right.values⟩

def fullRightRow (leftSchemaLen : Nat) (probe : Tuple) : Tuple :=
  ⟨probe.pk, List.replicate leftSchemaLen .null ++ probe.values⟩

/-- The loop over the left rows of the key: the first row of the pairs that pass the filter, how
many rows were looked at and the numbers of those the filter rejected. -/
def probeTuples (positions : Nat → Nat) (filter : Option PlanExpression) (probe : Tuple) :
    List (Nat × Tuple) → Result (Option Tuple × Nat × List Nat)
  | [] => .ok (none, 0, [])
  | (i, left) :: tuples => do
    if ← passes positions filter left.values probe.values then
      return (some (fullRow left probe), 1, [])
    else
      let (tuple, seen, rejected) ← probeTuples positions filter probe tuples
      return (tuple, seen + 1, i :: rejected)

namespace JoinProbeStateImpl

variable (positions : Nat → Nat) (filter : Option PlanExpression)

def ofType (ty : JoinType) (leftSchemaLen rightSchemaLen buildCount : Nat) :
    Result JoinProbeStateImpl :=
  match ty with
  | .inner => .ok .inner
  | .leftOuter => .ok (.left leftSchemaLen rightSchemaLen (.withCapacity buildCount))
  | .rightOuter => .ok (.right leftSchemaLen)
  | .full => .ok (.full leftSchemaLen rightSchemaLen (.withCapacity buildCount))
  | .cross => .error (.panic "internal error: entered unreachable code")

/-- A right row without a partner: dropped, or extended with NULLs once. -/
def unmatchedRight (joinImpl : JoinProbeStateImpl) (leftSchemaLen : Nat) (probe : ProbeState)
    (buildState : Option BuildState) : Probed :=
  if probe.emittedUnmatched then ⟨none, joinImpl, { probe with finished := true }, buildState⟩
  else ⟨some (fullRightRow leftSchemaLen probe.probeTuple), joinImpl,
    { probe with emittedUnmatched := true, finished := true }, buildState⟩

def innerProbeNext (probe : ProbeState) (buildState : Option BuildState) : Result Probed :=
  match probe.isKeysHasNull, buildState with
  | true, buildState => .ok ⟨none, .inner, { probe with finished := true }, buildState⟩
  | false, none => .ok ⟨none, .inner, { probe with finished := true }, none⟩
  | false, some build => do
    let (tuple, seen, _) ←
      probeTuples positions filter probe.probeTuple (build.tuples.drop probe.index)
    let probe := { probe with index := probe.index + seen }
    let build := { build with isUsed := true }
    match tuple with
    | some tuple => return ⟨some tuple, .inner, probe, some build⟩
    | none => return ⟨none, .inner, { probe with finished := true }, some build⟩

def leftProbeNext (leftSchemaLen rightSchemaLen : Nat) (bits : RowBitmap) (probe : ProbeState)
    (buildState : Option BuildState) : Result Probed :=
  match probe.isKeysHasNull, buildState with
  | true, buildState => .ok ⟨none, .left leftSchemaLen rightSchemaLen bits,
      { probe with finished := true }, buildState⟩
  | false, none => .ok ⟨none, .left leftSchemaLen rightSchemaLen bits,
      { probe with finished := true }, none⟩
  | false, some build => do
    let (tuple, seen, rejected) ←
      probeTuples positions filter probe.probeTuple (build.tuples.drop probe.index)
    let bits ← rejected.foldlM RowBitmap.insert bits
    let probe := { probe with
      index := probe.index + seen, hasFiltered := probe.hasFiltered || !rejected.isEmpty }
    match tuple with
    | some tuple => return ⟨some tuple, .left leftSchemaLen rightSchemaLen bits, probe,
        some { build with isUsed := true }⟩
    | none => return ⟨none, .left leftSchemaLen rightSchemaLen bits,
        { probe with finished := true },
        some { build with isUsed := !probe.hasFiltered, hasFilted := probe.hasFiltered }⟩

def rightProbeNext (leftSchemaLen : Nat) (probe : ProbeState) (buildState : Option BuildState) :
    Result Probed :=
  match probe.isKeysHasNull, buildState with
  | true, buildState =>
    .ok (unmatchedRight (.right leftSchemaLen) leftSchemaLen probe buildState)
  | false, none => .ok (unmatchedRight (.right leftSchemaLen) leftSchemaLen probe none)
  | false, some build => do
    let (tuple, seen, rejected) ←
      probeTuples positions filter probe.probeTuple (build.tuples.drop probe.index)
    let probe := { probe with
      index := probe.index + seen, hasFiltered := probe.hasFiltered || !rejected.isEmpty }
    match tuple with
    | some tuple => return ⟨some tuple, .right leftSchemaLen, { probe with produced := true },
        some { build with isUsed := true, hasFilted := probe.hasFiltered }⟩
    | none =>
      let build := { build with isUsed := probe.produced, hasFilted := probe.hasFiltered }
      if probe.produced then
        return ⟨none, .right leftSchemaLen, { probe with finished := true }, some build⟩
      else return unmatchedRight (.right leftSchemaLen) leftSchemaLen probe (some build)

/-- A full join looks at one left row of the key at a time. -/
def fullProbeNext (leftSchemaLen rightSchemaLen : Nat) (bits : RowBitmap) (probe : ProbeState)
    (buildState : Option BuildState) : Result Probed :=
  match probe.isKeysHasNull, buildState with
  | true, buildState => .ok (unmatchedRight (.full leftSchemaLen rightSchemaLen bits)
      leftSchemaLen probe buildState)
  | false, none => .ok (unmatchedRight (.full leftSchemaLen rightSchemaLen bits)
      leftSchemaLen probe none)
  | false, some build =>
    match build.tuples.drop probe.index with
    | (i, tuple) :: _ => do
      let probe := { probe with index := probe.index + 1 }
      if ← passes positions filter tuple.values probe.probeTuple.values then
        return ⟨some (fullRow tuple probe.probeTuple), .full leftSchemaLen rightSchemaLen bits,
          probe, some { build with isUsed := true, hasFilted := probe.hasFiltered }⟩
      else
        let bits ← bits.insert i
        return ⟨some (fullRightRow leftSchemaLen probe.probeTuple),
          .full leftSchemaLen rightSchemaLen bits, { probe with hasFiltered := true }, some build⟩
    | [] => .ok ⟨none, .full leftSchemaLen rightSchemaLen bits, { probe with finished := true },
        some { build with isUsed := !probe.hasFiltered, hasFilted := probe.hasFiltered }⟩

def probeNext (joinImpl : JoinProbeStateImpl) (probe : ProbeState)
    (buildState : Option BuildState) : Result Probed :=
  match joinImpl with
  | .inner => innerProbeNext positions filter probe buildState
  | .left leftSchemaLen rightSchemaLen bits =>
    leftProbeNext positions filter leftSchemaLen rightSchemaLen bits probe buildState
  | .right leftSchemaLen => rightProbeNext positions filter leftSchemaLen probe buildState
  | .full leftSchemaLen rightSchemaLen bits =>
    fullProbeNext positions filter leftSchemaLen rightSchemaLen bits probe buildState

/-- The first of the rows that is extended with NULLs, and the rows after it. -/
def dropCurrent (fullSchemaLen : Nat) (bits : RowBitmap) (hasFilted : Bool) :
    List (Nat × Tuple) → Option (Tuple × List (Nat × Tuple))
  | [] => none
  | (i, tuple) :: tuples =>
    if !bits.contains i && hasFilted then dropCurrent fullSchemaLen bits hasFilted tuples
    else some ({ tuple with values := (tuple.values ++
      List.replicate (fullSchemaLen - tuple.values.length) DataValue.null).take fullSchemaLen }, tuples)

def dropStates (fullSchemaLen : Nat) (bits : RowBitmap) :
    BuildMap → Option (Tuple × LeftDropState)
  | [] => none
  | (_, state) :: states =>
    if state.isUsed then dropStates fullSchemaLen bits states
    else
      match dropCurrent fullSchemaLen bits state.hasFilted state.tuples with
      | some (tuple, tuples) => some (tuple, ⟨states, some ⟨tuples, state.hasFilted⟩⟩)
      | none => dropStates fullSchemaLen bits states

/-- The left rows that a left or a full join keeps after the last probe. -/
def dropNext (fullSchemaLen : Nat) (bits : RowBitmap) (leftDrop : LeftDropState) :
    Option (Tuple × LeftDropState) :=
  match leftDrop.current with
  | some current =>
    match dropCurrent fullSchemaLen bits current.hasFilted current.tuples with
    | some (tuple, tuples) =>
      some (tuple, { leftDrop with current := some ⟨tuples, current.hasFilted⟩ })
    | none => dropStates fullSchemaLen bits leftDrop.states
  | none => dropStates fullSchemaLen bits leftDrop.states

def leftDropNext (joinImpl : JoinProbeStateImpl) (leftDrop : LeftDropState) :
    Option (Tuple × LeftDropState) :=
  match joinImpl with
  | .inner | .right _ => none
  | .left leftSchemaLen rightSchemaLen bits | .full leftSchemaLen rightSchemaLen bits =>
    dropNext (rightSchemaLen + leftSchemaLen) bits leftDrop

end JoinProbeStateImpl

inductive HashJoinState where
  | build
  | probe (buildMap : BuildMap) (joinImpl : JoinProbeStateImpl) (probeBuf : List DataValue)
      (probeState : Option ProbeState)
  | leftDrop (joinImpl : JoinProbeStateImpl) (leftDrop : LeftDropState)
  | over

structure HashJoin where
  state : HashJoinState
  ty : JoinType
  onLeftKeys : List PlanExpression
  onRightKeys : List PlanExpression
  filter : Option PlanExpression
  leftSchemaLen : Nat
  rightSchemaLen : Nat
  leftInput : List (Result Tuple)
  rightInput : List (Result Tuple)
  initError : Option DatabaseError

/-- What an executor finds around it: the positions of the column references and the order in
which a hash map returns its entries. -/
structure JoinArena where
  positions : Nat → Nat
  entries : BuildMap → BuildMap
  perm : ∀ map, (entries map).Perm map

namespace HashJoin

/-- The executor of a join operator above two inputs. -/
def ofOperator (op : JoinOperator) (leftSchemaLen rightSchemaLen : Nat)
    (leftInput rightInput : List (Result Tuple)) : HashJoin where
  state := .build
  ty := op.joinType
  onLeftKeys := op.on.map Prod.fst
  onRightKeys := op.on.map Prod.snd
  filter := op.filter
  leftSchemaLen := leftSchemaLen
  rightSchemaLen := rightSchemaLen
  leftInput := leftInput
  rightInput := rightInput
  initError :=
    if op.joinType = .cross then
      some (.unsupportedStmt "Cross join should not be executed by HashJoin")
    else if op.on.isEmpty then
      some (.unsupportedStmt
        "`NestLoopJoin` should be used when there is no equivalent condition")
    else none

def evalKeys (positions : Nat → Nat) (onKeys : List PlanExpression) (tuple : Tuple) :
    Result (List DataValue) :=
  onKeys.mapM fun expr => expr.eval positions tuple.values

/-- The left rows, grouped by their keys; the number of the next row comes with the map. -/
def buildRows (positions : Nat → Nat) (onLeftKeys : List PlanExpression) :
    List (Result Tuple) → BuildMap → Nat → Result (BuildMap × Nat)
  | [], map, count => .ok (map, count)
  | item :: input, map, count => do
    let tuple ← item
    let key ← evalKeys positions onLeftKeys tuple
    buildRows positions onLeftKeys input
      (KeyedMap.upsert DataValue.listTest ⟨[(count, tuple)], false, false⟩
        (fun state => { state with tuples := state.tuples ++ [(count, tuple)] }) map key)
      (count + 1)

def initializeBuild (join : HashJoin) (positions : Nat → Nat) : Result HashJoin :=
  match join.state with
  | .build => do
    let (map, count) ← buildRows positions join.onLeftKeys join.leftInput [] 0
    let joinImpl ← JoinProbeStateImpl.ofType join.ty join.leftSchemaLen join.rightSchemaLen count
    return { join with state := .probe map joinImpl [] none, leftInput := [] }
  | _ => .ok join

/-- One call of `probe_next` with the entry of the map that the keys select. -/
def probeOnce (join : HashJoin) (positions : Nat → Nat) (map : BuildMap)
    (joinImpl : JoinProbeStateImpl) (probeBuf : List DataValue) (probe : ProbeState) :
    Result (Probed × BuildMap) := do
  let found := if probe.isKeysHasNull then none
    else KeyedMap.lookup DataValue.listTest map probeBuf
  let probed ← joinImpl.probeNext positions join.filter probe found
  match probed.buildState with
  | none => return (probed, map)
  | some state =>
    if probe.isKeysHasNull then return (probed, map)
    else return (probed, KeyedMap.modify DataValue.listTest (fun _ => state) map probeBuf)

/-- What a call that yields a row leaves behind. -/
def resumed (join : HashJoin) (probed : Probed) (map : BuildMap) (probeBuf : List DataValue)
    (rightInput : List (Result Tuple)) : HashJoin :=
  { join with
    state := .probe map probed.joinImpl probeBuf
      (if probed.probe.finished then none else some probed.probe)
    rightInput := rightInput }

/-- What follows a call of `probe_next`: its row, or the next right row. -/
def settle (join : HashJoin) (probed : Probed) (map : BuildMap) (probeBuf : List DataValue)
    (rightInput : List (Result Tuple)) (next : Result (Option Tuple × HashJoin)) :
    Result (Option Tuple × HashJoin) :=
  match probed.tuple with
  | some row => .ok (some row, join.resumed probed map probeBuf rightInput)
  -- no implementation returns nothing before it has finished the probe
  | none => if probed.probe.finished then next else .error .divergence

/-- The rows kept after the last probe. -/
def drain (join : HashJoin) (joinImpl : JoinProbeStateImpl) (leftDrop : LeftDropState) :
    Option Tuple × HashJoin :=
  match joinImpl.leftDropNext leftDrop with
  | some (tuple, leftDrop) => (some tuple, { join with state := .leftDrop joinImpl leftDrop })
  | none => (none, { join with state := .over })

/-- The loop that takes right rows until one of them yields a row. -/
def probeRows (join : HashJoin) (arena : JoinArena) (map : BuildMap)
    (joinImpl : JoinProbeStateImpl) : List (Result Tuple) → Result (Option Tuple × HashJoin)
  | [] => .ok (drain { join with rightInput := [] } joinImpl ⟨arena.entries map, none⟩)
  | item :: input => do
    let tuple ← item
    let probeBuf ← evalKeys arena.positions join.onRightKeys tuple
    let probe := ⟨probeBuf.any DataValue.isNull, tuple, 0, false, false, false, false⟩
    let (probed, map) ← join.probeOnce arena.positions map joinImpl probeBuf probe
    join.settle probed map probeBuf input (probeRows join arena map probed.joinImpl input)

def nextTuple (arena : JoinArena) (join : HashJoin) : Result (Option Tuple × HashJoin) :=
  match join.initError with
  | some e => .error (.error e)
  | none => do
    let join ← join.initializeBuild arena.positions
    match join.state with
    | .build => .error (.panic
        "internal error: entered unreachable code: hash join must be initialized before probe")
    | .probe map joinImpl _ none => join.probeRows arena map joinImpl join.rightInput
    | .probe map joinImpl probeBuf (some probe) => do
      let (probed, map) ← join.probeOnce arena.positions map joinImpl probeBuf probe
      join.settle probed map probeBuf join.rightInput
        (join.probeRows arena map probed.joinImpl join.rightInput)
    | .leftDrop joinImpl leftDrop => .ok (join.drain joinImpl leftDrop)
    | .over => .ok (none, join)

end HashJoin

end KiteSQL
