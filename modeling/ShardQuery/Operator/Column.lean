import ShardQuery.Operator.Marks

/-!
Columns of a select step: plain expressions, and aggregates into which rows are folded.
-/

namespace ShardQuery

inductive Column where
  | scalar (s : Scalar)
  /-- An aggregate with the register of its result and what it is taken of. -/
  | aggregate (reg : Nat) (input : Option Scalar) (acc : Accumulator)
  deriving Inhabited, Repr

namespace Column

def ofStep : PlanStep → Except QueryError Column
  | .aggregate reg func none => do
    Scalar.ofStep.ofInput func none
    return .aggregate reg none (.ofFunc func)
  | .aggregate reg func (some input) => do
    return .aggregate reg (some (← Scalar.ofStep input)) (.ofFunc func)
  | step => do return .scalar (← Scalar.ofStep step)

def isAggregate : Column → Bool
  | .aggregate .. => true
  | .scalar _ => false

def reg : Column → Nat
  | .scalar s => s.reg
  | .aggregate r _ _ => r

/-- Puts the value, if there is one, into the register. -/
def run : Column → Control → Except QueryError Bool × Control
  | .scalar s, c => s.run c
  | .aggregate r _ acc, c => (.ok true, c.setReg r acc.result)

/-- The value itself, or a null if there is none. -/
def read (col : Column) (c : Control) : Except QueryError Value × Control :=
  match col.run c with
  | (.ok true, c) => (.ok (c.reg col.reg), c)
  | (.ok false, c) => (.ok .null, c)
  | (.error e, c) => (.error e, c)

/-- What an aggregate takes of the current row. -/
def inputValue : Option Scalar → Control → Except QueryError Value × Control
  | none, c => (.ok .empty, c)
  | some s, c =>
    match s.run c with
    | (.ok true, c) => (.ok (c.reg s.reg), c)
    | (.ok false, c) => (.ok .empty, c)
    | (.error e, c) => (.error e, c)

/-- Folds the current row into an aggregate. Returns the growth in bytes. -/
def fold : Column → Control → Except QueryError (Nat × Column) × Control
  | .scalar _, c => (.error (.defect "aggregate_row on a non-aggregate iterator"), c)
  | .aggregate r input acc, c =>
    match inputValue input c with
    | (.ok v, c) => ((acc.aggregate v).map fun p => (p.1, .aggregate r input p.2), c)
    | (.error e, c) => (.error e, c)

/-- The result of an aggregate with the bytes it held, and the aggregate for the next group. -/
def take : Column → Except QueryError (Value × Nat × Column)
  | .scalar _ => .error (.defect "take_aggregate on a non-aggregate iterator")
  | .aggregate r input acc => .ok (acc.result, acc.memory, .aggregate r input acc.rearm)

end Column

/-- A column that gives its value once, until it is reset. -/
structure Evaluator where
  column : Column
  marks : Marks := .clear
  deriving Inhabited, Repr

namespace Evaluator

def reset (e : Evaluator) : Evaluator := { e with marks := e.marks.reset }

def next (e : Evaluator) (c : Control) : Except QueryError Bool × Evaluator × Control :=
  match e.column with
  | .scalar s =>
    let (result, marks, registers) := s.next c.externals e.marks c.registers
    (result, { e with marks }, { c with registers })
  | .aggregate r _ acc =>
    if e.marks.spent then (.ok false, e, c)
    else (.ok true, { e with marks := .node true [] }, c.setReg r acc.result)

end Evaluator
end ShardQuery
