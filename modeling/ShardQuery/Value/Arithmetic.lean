import ShardQuery.Error
import ShardQuery.Value.Basic

/-!
Arithmetic on values. An integer result that does not fit becomes a long, and a long that does not
fit is an error. A double on either side makes the result a double.
-/

namespace ShardQuery

/-- An operator of an arithmetic step. -/
inductive ArithOp where
  | add
  | subtract
  | multiply
  | divide
  /-- Division whose result is always a double. -/
  | realDivide
  deriving DecidableEq, Inhabited, Repr

namespace ArithOp

/-- The operator that a plan writes as one character. -/
def ofChar? : Char → Option ArithOp
  | '+' => some .add
  | '-' => some .subtract
  | '*' => some .multiply
  | '/' => some .divide
  | 'd' => some .realDivide
  | _ => none

def isAdditive : ArithOp → Bool
  | .add | .subtract => true
  | _ => false

/-- The operator's name in a type error. -/
def symbol : ArithOp → String
  | .add => "+"
  | .subtract => "-"
  | .multiply => "*"
  | .divide => "/"
  | .realDivide => "real division"

/-- The operator's name in an overflow. -/
def noun : ArithOp → String
  | .add => "addition"
  | .subtract => "subtraction"
  | .multiply => "multiplication"
  | .divide | .realDivide => "division"

/-- The exact result on whole numbers; a quotient is cut towards zero. -/
def onInts : ArithOp → Int → Int → Int
  | .add, x, y => x + y
  | .subtract, x, y => x - y
  | .multiply, x, y => x * y
  | .divide, x, y | .realDivide, x, y => x.tdiv y

def onDoubles : ArithOp → Double → Double → Double
  | .add, x, y => x + y
  | .subtract, x, y => x - y
  | .multiply, x, y => x * y
  | .divide, x, y | .realDivide, x, y => x / y

end ArithOp

/-- The numbers that fit 32 bits. -/
def fitsInteger (n : Int) : Bool := -2 ^ 31 ≤ n && n < 2 ^ 31

/-- The numbers that fit 64 bits. -/
def fitsLong (n : Int) : Bool := -2 ^ 63 ≤ n && n < 2 ^ 63

namespace Value

def mismatch (op : ArithOp) (a b : Value) : QueryError :=
  .typeMismatch s!"cannot apply {op.symbol} to {a.typeName} and {b.typeName}"

/-- The value of an exact result on two integers: the narrower type that holds it. -/
def ofInts (n : Int) : Value :=
  if fitsInteger n then .integer (Int32.ofInt n) else .long (Int64.ofInt n)

/-- The value of an exact result on longs. -/
def ofLongs (op : ArithOp) (n : Int) : Except QueryError Value :=
  if fitsLong n then .ok (.long (Int64.ofInt n)) else .error (.overflow s!"LONG {op.noun}")

/-- Whether the operator refuses this whole number on its right. -/
def dividesByZero (op : ArithOp) (y : Int) : Bool := op == .divide && y == 0

/-- The result on doubles, where both sides are numbers. -/
def applyDoubles (op : ArithOp) (a b : Value) : Except QueryError Value :=
  match a.toDouble?, b.toDouble? with
  | some x, some y => .ok (.double (op.onDoubles x y))
  | _, _ => .error (mismatch op a b)

/-- The result on whole numbers of which at least one is a long. -/
def applyLongs (op : ArithOp) (a b : Value) : Except QueryError Value :=
  match a.toLong?, b.toLong? with
  | some x, some y =>
    if dividesByZero op y.toInt then .error .divisionByZero
    else ofLongs op (op.onInts x.toInt y.toInt)
  | _, _ => .error (mismatch op a b)

end Value

/-- Applies an operator to two values. -/
def ArithOp.apply (op : ArithOp) (a b : Value) : Except QueryError Value :=
  match op, a, b with
  | .realDivide, _, _ => Value.applyDoubles op a b
  | _, .integer x, .integer y =>
    if Value.dividesByZero op y.toInt then .error .divisionByZero
    else .ok (Value.ofInts (op.onInts x.toInt y.toInt))
  | _, .double _, _ | _, _, .double _ => Value.applyDoubles op a b
  | _, _, _ => Value.applyLongs op a b

end ShardQuery
