import ShardQuery.Operator.Scalar

/-!
Expressions that are evaluated once, until they are reset. A part that has been evaluated is marked,
and gives no value as long as it is.
-/

namespace ShardQuery

/-- Which parts of an expression have been evaluated since they were last reset, the whole of it
first. Nothing is said of a part that has not. -/
inductive Marks where
  | node (spent : Bool) (parts : List Marks)
  deriving Inhabited, Repr

namespace Marks

/-- The marks of an expression that has not been evaluated. -/
def clear : Marks := .node false []

def spent : Marks → Bool
  | .node spent _ => spent

mutual

/-- Takes the mark off an expression and off all its parts. -/
def reset : Marks → Marks
  | .node _ parts => .node false (resetAll parts)

def resetAll : List Marks → List Marks
  | [] => []
  | m :: rest => m.reset :: resetAll rest

end

end Marks

namespace Scalar

mutual

/-- Evaluates an expression unless it is marked. The result says whether there is a value; it is in
the register. An argument is reset just before it is evaluated, any other part is not. -/
def next (externals : List (Option Value)) :
    Scalar → Marks → List Value → Except QueryError Bool × Marks × List Value
  | _, .node true parts, regs => (.ok false, .node true parts, regs)
  | .const r v, .node false parts, regs => (.ok true, .node true parts, regs.set r v)
  | .var _, .node false parts, regs => (.ok true, .node true parts, regs)
  | .external r name id, .node false parts, regs =>
    match boundVariable externals id name with
    | .ok v => (.ok true, .node true parts, regs.set r v)
    | .error e => (.error e, .node true parts, regs)
  | .field r input name, .node false parts, regs =>
    match next externals input (parts.headD .clear) regs with
    | (.ok true, m, regs) =>
      match fieldOf (readRegister regs input.reg) name with
      | .ok (some v) => (.ok true, .node true [m], regs.set r v)
      | .ok none => (.ok false, .node true [m], regs)
      | .error e => (.error e, .node true [m], regs)
    | (result, m, regs) => (result, .node true [m], regs)
  | .arith r kind args, .node false parts, regs =>
    match nextArgs externals args parts kind.identity regs with
    | (.ok (some v), parts, regs) => (.ok true, .node true parts, regs.set r v)
    | (.ok none, parts, regs) => (.ok false, .node true parts, regs)
    | (.error e, parts, regs) => (.error e, .node true parts, regs)
  | .aggregate r func, .node false parts, regs =>
    (.ok true, .node true parts, regs.set r (Accumulator.ofFunc func).result)

/-- Joins arguments from left to right. Those behind the first null, missing value or error keep
their marks. -/
def nextArgs (externals : List (Option Value)) :
    List (ArithOp × Scalar) → List Marks → Value → List Value →
      Except QueryError (Option Value) × List Marks × List Value
  | [], parts, sum, regs => (.ok (some sum), parts, regs)
  | (op, arg) :: rest, parts, sum, regs =>
    match next externals arg (parts.headD .clear).reset regs with
    | (.ok true, m, regs) =>
      let operand := readRegister regs arg.reg
      match join op sum operand with
      | .ok (some v) =>
        if operand.isNullLike then (.ok (some v), m :: parts.tail, regs)
        else
          let (result, parts, regs) := nextArgs externals rest parts.tail v regs
          (result, m :: parts, regs)
      | .ok none => (.ok none, m :: parts.tail, regs)
      | .error e => (.error e, m :: parts.tail, regs)
    | (.ok false, m, regs) => (.ok none, m :: parts.tail, regs)
    | (.error e, m, regs) => (.error e, m :: parts.tail, regs)

end

end Scalar
end ShardQuery
