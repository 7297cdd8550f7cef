import KiteSQL.Execution.SpillSegments

/-! Recursive common table expressions: each generation of rows is returned and then read by the
recursive term. -/
namespace KiteSQL

open Iterate

/-- How the rows of a generation are kept when there are two or more: written, read for the output,
and read once more by the recursive term. -/
structure Spool where
  Writer : Type
  Reader : Type
  two : Tuple → Tuple → Result Writer
  push : Writer → Tuple → Result Writer
  finish : Writer → Result Reader
  next : Reader → Result (Option Tuple × Reader)
  input : Reader → Result (List (Result Tuple))

/-- Rows in memory, with the index of the next one to return. -/
def vecSpool : Spool where
  Writer := List Tuple
  Reader := List Tuple × Nat
  two first tuple := .ok [first, tuple]
  push rows tuple := .ok (rows ++ [tuple])
  finish rows := .ok (rows, 0)
  next reader :=
    let tuple := reader.1[reader.2]?
    .ok (tuple, (reader.1, reader.2 + if tuple.isSome then 1 else 0))
  input reader := .ok (reader.1.map .ok)

/-- What the calls of `next` return up to the end or the first error. -/
def SpillReader.results {α : Type} [SpillCodec α] : Nat → SpillReader α → List (Result α)
  | 0, _ => []
  | fuel + 1, reader =>
    match reader.next with
    | .error error => [.error error]
    | .ok (none, _) => []
    | .ok (some row, reader) => .ok row :: reader.results fuel

/-- No more rows than this are left. -/
def SpillReader.size {α : Type} : SpillReader α → Nat
  | .memory rows => rows.length
  | .spilled _ tail file => file.length + tail.length
  | .exhausted _ => 1

/-- Rows in a spill file. -/
def spillSpool [DecimalLayout] [EstimatedSize Tuple] (limits : SpillLimits) : Spool where
  Writer := SpillVec Tuple
  Reader := SpillReader Tuple
  two first tuple := do
    let (_, rows) ← (SpillVec.new limits none).push first
    let (_, rows) ← rows.push tuple
    return rows
  push rows tuple := do
    let (_, rows) ← rows.push tuple
    return rows
  finish rows := do
    let (_, rows) ← rows.flush
    return rows.intoIter
  next := SpillReader.next
  input reader := do
    let reader ← reader.reset
    return reader.results reader.size

inductive RecursiveRows (S : Spool) where
  | empty
  | one (tuple : Tuple) (outputDone : Bool)
  | writing (rows : S.Writer)
  | reading (reader : S.Reader)

namespace RecursiveRows

variable {S : Spool}

def push (self : RecursiveRows S) (tuple : Tuple) : Result (RecursiveRows S) :=
  match self with
  | .empty => .ok (.one tuple false)
  | .one first false => .writing <$> S.two first tuple
  | .writing rows => .writing <$> S.push rows tuple
  | .one _ true | .reading _ => .error (.panic
      "internal error: entered unreachable code: cannot append to a finished recursive generation")

def finish : RecursiveRows S → Result (RecursiveRows S)
  | .writing rows => .reading <$> S.finish rows
  | rows => .ok rows

def nextOutput : RecursiveRows S → Result (Option Tuple × RecursiveRows S)
  | .empty => .ok (none, .empty)
  | .one tuple outputDone => .ok (if outputDone then none else some tuple, .one tuple true)
  | .reading reader => do
    let (tuple, reader) ← S.next reader
    return (tuple, .reading reader)
  | .writing _ => .error (.panic
      "internal error: entered unreachable code: recursive generation must be finished first")

/-- What the scan in the recursive term returns; nothing is read from an empty generation. -/
def intoInput : RecursiveRows S → Result (Option (List (Result Tuple)))
  | .empty => .ok none
  | .one tuple _ => .ok (some [.ok tuple])
  | .reading reader => some <$> S.input reader
  | .writing _ => .error (.panic
      "internal error: entered unreachable code: recursive generation must be finished first")

/-- The loop that collects a generation. -/
def pushAll : List (Result Tuple) → RecursiveRows S → Result (RecursiveRows S)
  | [], rows => .ok rows
  | item :: input, rows => do
    let tuple ← item
    pushAll input (← rows.push tuple)

end RecursiveRows

inductive RecursivePhase where
  | anchor
  | output
  | recursive

/-- The recursive plan is what it returns for what its scan of the expression returns. -/
structure RecursiveCte (S : Spool) where
  recursivePlan : List (Result Tuple) → List (Result Tuple)
  anchorInput : List (Result Tuple)
  recursiveRoot : List (Result Tuple)
  working : RecursiveRows S
  next : RecursiveRows S
  phase : RecursivePhase

namespace RecursiveCte

variable {S : Spool}

def new (S : Spool) (anchorInput : List (Result Tuple))
    (recursivePlan : List (Result Tuple) → List (Result Tuple)) : RecursiveCte S :=
  ⟨recursivePlan, anchorInput, [], .empty, .empty, .anchor⟩

def startRecursive (it : RecursiveCte S) : Result (Bool × RecursiveCte S) := do
  match ← it.working.intoInput with
  | none => return (false, { it with working := .empty })
  | some input =>
    return (true, { it with working := .empty, recursiveRoot := it.recursivePlan input })

/-- One turn of the loop, and what it returns if it ends the call. -/
def turn (it : RecursiveCte S) : Result (Option (Option Tuple) × RecursiveCte S) :=
  match it.phase with
  | .anchor => do
    let next ← RecursiveRows.pushAll it.anchorInput it.next
    let working ← next.finish
    return (none,
      { it with anchorInput := [], working := working, next := .empty, phase := .output })
  | .output => do
    let (tuple, working) ← it.working.nextOutput
    match tuple with
    | some tuple => return (some (some tuple), { it with working := working })
    | none =>
      let (started, it) ← { it with working := working }.startRecursive
      if started then return (none, { it with phase := .recursive }) else return (some none, it)
  | .recursive => do
    let next ← RecursiveRows.pushAll it.recursiveRoot it.next
    let working ← next.finish
    return (none,
      { it with recursiveRoot := [], working := working, next := .empty, phase := .output })

def loop : Nat → RecursiveCte S → Result (Option Tuple × RecursiveCte S)
  | 0, _ => .error .divergence
  | fuel + 1, it => do
    match ← it.turn with
    | (some result, it) => return (result, it)
    | (none, it) => loop fuel it

/-- No call takes more than three turns. -/
def nextTuple (it : RecursiveCte S) : Result (Option Tuple × RecursiveCte S) := loop 3 it

end RecursiveCte

end KiteSQL
