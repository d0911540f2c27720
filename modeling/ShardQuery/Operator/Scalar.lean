import ShardQuery.Operator.Accumulator
import ShardQuery.Operator.Control
import ShardQuery.Plan.Validation

/-!
Expressions ready to be evaluated. An expression leaves its value in a register, or has no value.
-/

namespace ShardQuery

/-- An expression with the register of its result. -/
inductive Scalar where
  | const (reg : Nat) (value : Value)
  /-- The value that is already in the register. -/
  | var (reg : Nat)
  | external (reg : Nat) (name : String) (id : Nat)
  | field (reg : Nat) (input : Scalar) (name : String)
  /-- Each argument with the operator that joins it to those before it. -/
  | arith (reg : Nat) (kind : ArithKind) (args : List (ArithOp × Scalar))
  /-- An aggregate that no row is folded into. -/
  | aggregate (reg : Nat) (func : AggregateFunc)
  deriving Inhabited, Repr

/-- What the arguments of an arithmetic step are joined to. -/
def ArithKind.identity : ArithKind → Value
  | .additive => .integer 0
  | .multiplicative => .integer 1

namespace Scalar

def reg : Scalar → Nat
  | .const r _ | .var r | .external r _ _ | .field r _ _ | .arith r _ _ | .aggregate r _ => r

/-- The operators that a text spells. -/
def ops (s : String) : Except QueryError (List ArithOp) :=
  s.toList.mapM fun c =>
    match ArithOp.ofChar? c with
    | some op => .ok op
    | none => .error (.protocol s!"illegal arithmetic operator {Text.quoteChar c}")

/-- Reads a step as an expression. -/
def ofStep : PlanStep → Except QueryError Scalar
  | .const reg v => .ok (.const reg v)
  | .varRef reg _ => .ok (.var reg)
  | .externalVarRef reg name id => .ok (.external reg name id)
  | .field reg input name => do return .field reg (← ofStep input) name
  | .arith reg kind args text => do
    let symbols ← ops text
    if symbols.length != args.length then
      throw (.protocol s!"{symbols.length} operators for {args.length} arithmetic arguments")
    return .arith reg kind (symbols.zip (← ofSteps args))
  | .aggregate reg func input => do
    ofInput func input
    return .aggregate reg func
  | step => .error (.protocol s!"{step.kindName} step used where a scalar is expected")
where
  ofSteps : List PlanStep → Except QueryError (List Scalar)
    | [] => .ok []
    | s :: rest => do return (← ofStep s) :: (← ofSteps rest)
  /-- Checks the input of an aggregate, which only one function can do without. -/
  ofInput (func : AggregateFunc) : Option PlanStep → Except QueryError Unit
    | none =>
      if func = .countStar then .ok ()
      else .error (.protocol s!"aggregate {func.title} without input")
    | some s => do discard (ofStep s)

/-- A field of a value, where there is one. Nothing has no fields. -/
def fieldOf (v : Value) (name : String) : Except QueryError (Option Value) :=
  match v with
  | .map fields => .ok ((Record.get? fields name).filter (!·.isEmpty))
  | .empty | .jsonNull | .null => .ok none
  | other => .error (.defect s!"field step {name} applied to a {other.typeName} value")

/-- Joins an operand: an empty one leaves no value, and a null makes the whole result null. -/
def join (op : ArithOp) (sum operand : Value) : Except QueryError (Option Value) :=
  match operand with
  | .empty => .ok none
  | .null | .jsonNull => .ok (some .null)
  | _ => (op.apply sum operand).map some

mutual

/-- Evaluates an expression. The result says whether there is a value; it is in the register. -/
def eval (externals : List (Option Value)) :
    Scalar → List Value → Except QueryError Bool × List Value
  | .const r v, regs => (.ok true, regs.set r v)
  | .var _, regs => (.ok true, regs)
  | .external r name id, regs =>
    match boundVariable externals id name with
    | .ok v => (.ok true, regs.set r v)
    | .error e => (.error e, regs)
  | .field r input name, regs =>
    match eval externals input regs with
    | (.ok true, regs) =>
      match fieldOf (readRegister regs input.reg) name with
      | .ok (some v) => (.ok true, regs.set r v)
      | .ok none => (.ok false, regs)
      | .error e => (.error e, regs)
    | other => other
  | .arith r kind args, regs =>
    match evalArgs externals args kind.identity regs with
    | (.ok (some v), regs) => (.ok true, regs.set r v)
    | (.ok none, regs) => (.ok false, regs)
    | (.error e, regs) => (.error e, regs)
  | .aggregate r func, regs => (.ok true, regs.set r (Accumulator.ofFunc func).result)

/-- Joins arguments from left to right. The first null, missing value or error ends it. -/
def evalArgs (externals : List (Option Value)) :
    List (ArithOp × Scalar) → Value → List Value → Except QueryError (Option Value) × List Value
  | [], sum, regs => (.ok (some sum), regs)
  | (op, arg) :: rest, sum, regs =>
    match eval externals arg regs with
    | (.ok true, regs) =>
      let operand := readRegister regs arg.reg
      match join op sum operand with
      | .ok (some v) =>
        if operand.isNullLike then (.ok (some v), regs) else evalArgs externals rest v regs
      | .ok none => (.ok none, regs)
      | .error e => (.error e, regs)
    | (.ok false, regs) => (.ok none, regs)
    | (.error e, regs) => (.error e, regs)

end

/-- Evaluates an expression on the registers of a query. -/
def run (s : Scalar) (c : Control) : Except QueryError Bool × Control :=
  let (result, registers) := s.eval c.externals c.registers
  (result, { c with registers })

end Scalar
end ShardQuery
