import ShardQuery.Numerals

/-!
Double-precision numbers by their bit patterns. Every finite double is a whole number of smallest
positive doubles, so `rank` gives the numeric order exactly, without rounding. `whole` and `rest`
split it into an integer and what is left, which makes doubles comparable with longs.
-/

namespace ShardQuery

/-- A binary64 number, held as its 64 bits so that equality of doubles is decidable. -/
structure Double where
  bits : UInt64
  deriving DecidableEq, Inhabited, Repr

namespace Double

/-- The biased exponent field. -/
def exponent (d : Double) : Nat := d.bits.toNat / 2 ^ 52 % 2 ^ 11

/-- The fraction field. -/
def fraction (d : Double) : Nat := d.bits.toNat % 2 ^ 52

def negative (d : Double) : Bool := 2 ^ 63 ≤ d.bits.toNat

def isNaN (d : Double) : Bool := d.exponent == 2047 && d.fraction != 0

/-- How many smallest positive doubles make up the absolute value. Infinity gets the count just
past the largest finite double, `2 ^ 2098`. -/
def magnitude (d : Double) : Nat :=
  if d.exponent = 0 then d.fraction else (2 ^ 52 + d.fraction) * 2 ^ (d.exponent - 1)

/-- The number one, in smallest positive doubles. -/
def unit : Nat := 2 ^ 1074

/-- The place in the numeric order. Both zeros share a place, and NaN comes after infinity. -/
def rank (d : Double) : Int :=
  if d.isNaN then 2 ^ 2098 + 1
  else if d.negative then -(d.magnitude : Int) else d.magnitude

/-- The largest integer that is not above the double. -/
def whole (d : Double) : Int := d.rank / unit

/-- How far the double is above that integer, in smallest positive doubles. -/
def rest (d : Double) : Nat := (d.rank % unit).toNat

/-- The long that equals this double, if there is one. -/
def toLong? (d : Double) : Option Int64 :=
  if d.rest = 0 ∧ -2 ^ 63 ≤ d.whole ∧ d.whole < 2 ^ 63 then some (Int64.ofInt d.whole) else none

/-- The quiet NaN that stands for all of them. -/
def nan : Double := ⟨0x7ff8000000000000⟩

/-- One bit pattern per double: all NaNs become one. -/
def canonical (d : Double) : Double := if d.isNaN then nan else d

/-- Numeric equality: a NaN equals nothing and the two zeros are equal. -/
def numericEq (a b : Double) : Bool := !a.isNaN && !b.isNaN && a.rank == b.rank

def toFloat (d : Double) : Float := Float.ofBits d.bits

def ofFloat (f : Float) : Double := ⟨f.toBits⟩

/-- The double nearest to a long. -/
def ofLong (n : Int64) : Double := ofFloat n.toFloat

instance : Add Double := ⟨fun a b => ofFloat (a.toFloat + b.toFloat)⟩
instance : Sub Double := ⟨fun a b => ofFloat (a.toFloat - b.toFloat)⟩
instance : Mul Double := ⟨fun a b => ofFloat (a.toFloat * b.toFloat)⟩
instance : Div Double := ⟨fun a b => ofFloat (a.toFloat / b.toFloat)⟩

end Double
end ShardQuery
