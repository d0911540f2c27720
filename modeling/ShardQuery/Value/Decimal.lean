import ShardQuery.Value.Double

/-!
Doubles in decimal. Writing finds the fewest digits whose nearest double is the one to be written.
Reading takes a whole number and a power of ten and rounds twice: the number to a double, and then
its product with the power.
-/

namespace ShardQuery
namespace Double

/-- The bits of the double nearest to `num / den`, where a tie goes to the even neighbour. A result
past the largest finite double has the bits of infinity or more. -/
def nearestBits (num den : Nat) : Nat :=
  let scaled := num * unit
  let whole := scaled / den
  let shift := whole.log2 - 52
  let kept := whole / 2 ^ shift
  let lost := scaled - kept * 2 ^ shift * den
  let half := 2 ^ shift * den
  let up := half < 2 * lost || (half == 2 * lost && kept % 2 == 1)
  shift * 2 ^ 52 + kept + (if up then 1 else 0)

/-- The bits of positive infinity. -/
def infinityBits : Nat := 2047 * 2 ^ 52

/-- A double from its sign and the bits of its absolute value. -/
def ofSignBits (negative : Bool) (bits : Nat) : Double :=
  ⟨UInt64.ofNat (bits + if negative then 2 ^ 63 else 0)⟩

/-- How many decimal digits a number has. -/
def digitCount (n : Nat) : Nat := (Nat.toDigits 10 n).length

/-- The double nearest to `digits * 10 ^ exponent`, unless that is too large for a double. -/
def ofDecimal? (negative : Bool) (digits : Nat) (exponent : Int) : Option Double :=
  if digits = 0 || exponent + digitCount digits < -400 then some (ofSignBits negative 0)
  else if 400 < exponent + digitCount digits then none
  else
    let bits :=
      if 0 ≤ exponent then nearestBits (digits * 10 ^ exponent.toNat) 1
      else nearestBits digits (10 ^ (-exponent).toNat)
    if bits < infinityBits then some (ofSignBits negative bits) else none

/-- The double nearest to a whole number below `2 ^ 1024`. -/
def ofNat (n : Nat) : Double := ofSignBits false (nearestBits n 1)

/-- A double divided by a power of ten. What is past the largest power that a double holds is taken
off in steps, which stop at zero. -/
def divideByPower (d : Double) (exponent : Nat) : Double :=
  if exponent ≤ 308 then d / ofNat (10 ^ exponent)
  else if d.magnitude = 0 then d
  else divideByPower (d / ofNat (10 ^ 308)) (exponent - 308)
termination_by exponent
decreasing_by omega

/-- A whole number of 64 bits times a power of ten, unless that is too large for a double. -/
def scale? (n : Nat) : Int → Option Double
  | .negSucc e => some (divideByPower (ofNat n) (e + 1))
  | .ofNat e =>
    if n = 0 then some (ofNat 0)
    else if 308 < e then none
    else
      let d := ofNat n * ofNat (10 ^ e)
      if d.exponent = 2047 then none else some d

/-- The double of the other sign. -/
def negate (d : Double) : Double := ⟨d.bits ^^^ 0x8000000000000000⟩

/-- The bits of the absolute value. -/
def absBits (d : Double) : Nat := d.bits.toNat % 2 ^ 63

/-- The smallest `k` for which the absolute value is below `10 ^ k`, searched upwards from `k`. -/
def decimalPoint (magnitude : Nat) : Nat → Int → Int
  | 0, k => k
  | fuel + 1, k =>
    let below := if 0 ≤ k then magnitude < 10 ^ k.toNat * unit
      else magnitude * 10 ^ (-k).toNat < unit
    if below then k else decimalPoint magnitude fuel (k + 1)

/-- The decimal of `count` digits that reads back as this double and is nearest to it. -/
def withDigits? (d : Double) (point : Int) (count : Nat) : Option (Nat × Int) :=
  let exponent := point - count
  let (num, den) :=
    if 0 ≤ exponent then (d.magnitude, unit * 10 ^ exponent.toNat)
    else (d.magnitude * 10 ^ (-exponent).toNat, unit)
  let low := num / den
  let nearer := if 2 * (num % den) ≤ den then [low, low + 1] else [low + 1, low]
  let hit := nearer.find? fun n => ((ofDecimal? false n exponent).map absBits) == some d.absBits
  hit.map fun n => if n = 10 ^ count then (10 ^ (count - 1), exponent + 1) else (n, exponent)

/-- The fewest digits, with their power of ten, that read back as the absolute value. -/
def shortest (d : Double) : Nat × Int :=
  if d.magnitude = 0 then (0, 0)
  else
    let point := decimalPoint d.magnitude 800 (-400)
    ((List.range' 1 17).findSome? (d.withDigits? point)).getD (0, 0)

end Double
end ShardQuery
