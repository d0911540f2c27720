import ShardQuery.Plan.Step
import ShardQuery.Value.Arithmetic
import ShardQuery.Value.Placed
import ShardQuery.Value.Tuple

/-!
Accumulators of aggregate functions. One is fed either with the values of rows or with results that
servers computed for parts of the same group.
-/

namespace ShardQuery

structure Accumulator where
  func : AggregateFunc
  /-- Empty where a sum or an extreme has seen nothing yet. -/
  value : Value
  /-- The values that a distinct collection holds. -/
  seen : List Value := []
  /-- Bytes held by collected values. -/
  memory : Nat := 0
  deriving Inhabited, Repr

/-- What a function yields before it has seen anything. -/
def AggregateFunc.initial : AggregateFunc → Value
  | .countStar | .count | .countNumbers => .long 0
  | .collect | .collectDistinct => .array []
  | .sum | .min | .max => .empty

namespace Accumulator

def ofFunc (func : AggregateFunc) : Accumulator := { func, value := func.initial }

/-- The result so far. A sum or an extreme of nothing is null. -/
def result (a : Accumulator) : Value := a.value.orNull

def setResult (a : Accumulator) (v : Value) : Accumulator := { a with value := v }

/-- The accumulator for the next group. -/
def rearm (a : Accumulator) : Accumulator := ofFunc a.func

/-- Adds a value to a collected array. -/
def push : Value → Value → Value
  | .array items, v => .array (items ++ [v])
  | other, _ => other

/-- Adds a number to what was counted or summed up. -/
def plus (a : Accumulator) (v : Value) : Except QueryError Accumulator := do
  return { a with value := ← ArithOp.add.apply a.value v }

/-- Keeps the value if it is the first or stands in the wanted relation to the one kept so far. -/
def keepExtreme (a : Accumulator) (wanted : Ordering) (v : Value) : Accumulator :=
  if v.isNullLike then a
  else if a.value.isEmpty || v.compare false a.value == wanted then { a with value := v }
  else a

/-- Collects a copy of a value and says by how many bytes the collection has grown, which are those
of the value itself. -/
def collect (a : Accumulator) (p : Placed) : Nat × Accumulator :=
  if p.value.isEmpty then (0, a)
  else (p.size, { a with value := push a.value p.value, memory := a.memory + p.size })

/-- Collects a copy of a value unless one that the order does not tell from it was collected before.
The memory of a new value is counted together with that of its key, which holds another copy. -/
def collectDistinct (a : Accumulator) (p : Placed) : Nat × Accumulator :=
  if p.value.isEmpty || a.seen.any p.value.equiv then (0, a)
  else
    let size := p.size + groupSize [p.value]
    (size, { a with
      value := push a.value p.value
      seen := p.value :: a.seen
      memory := a.memory + size })

/-- Takes in the value of one row. Returns the growth in bytes. A refused addition leaves the
accumulator as it was. -/
def aggregate (a : Accumulator) (p : Placed) : Except QueryError (Nat × Accumulator) :=
  match a.func with
  | .countStar => (a.plus (.long 1)).map (0, ·)
  | .count => if p.value.isNullLike then .ok (0, a) else (a.plus (.long 1)).map (0, ·)
  | .countNumbers => if p.value.isNumeric then (a.plus (.long 1)).map (0, ·) else .ok (0, a)
  | .sum =>
    if !p.value.isNumeric then .ok (0, a)
    else if a.value.isEmpty then .ok (0, { a with value := p.value })
    else (a.plus p.value).map (0, ·)
  | .min => .ok (0, a.keepExtreme .lt p.value)
  | .max => .ok (0, a.keepExtreme .gt p.value)
  | .collect => .ok (a.collect p)
  | .collectDistinct => .ok (a.collectDistinct p)

/-- Takes in the values of several rows, in order. -/
def aggregateAll (a : Accumulator) : List Placed → Except QueryError (Nat × Accumulator)
  | [] => .ok (0, a)
  | p :: rest => do
    let (grown, a) ← a.aggregate p
    let (more, a) ← a.aggregateAll rest
    return (grown + more, a)

/-- Takes in a result computed for a part of the group: counts are added, collected arrays are
joined, and all else is fed in like the value of a row. -/
def merge (a : Accumulator) (partialResult : Placed) : Except QueryError (Nat × Accumulator) :=
  match a.func, partialResult.items? with
  | .countStar, _ | .count, _ | .countNumbers, _ =>
    if partialResult.value.isNumeric then (a.plus partialResult.value).map (0, ·) else .ok (0, a)
  | .collect, some items | .collectDistinct, some items => a.aggregateAll items
  | _, _ => a.aggregate partialResult

end Accumulator
end ShardQuery
