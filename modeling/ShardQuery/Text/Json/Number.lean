import ShardQuery.Text.Json

/-!
Numbers in JSON texts. A number without fraction and exponent is an integer if 64 bits hold it. Any
other one is a double, made of the digits that 64 bits hold and a power of ten that counts the rest.
-/

namespace ShardQuery.Json

/-- Appends decimal digits to a number while 64 bits hold it, and gives the digits left over. -/
def appendDigits (n : Nat) : List Char → Nat × List Char
  | [] => (n, [])
  | c :: cs =>
    let longer := Nat.ofDigitChars 10 [c] n
    if longer < 2 ^ 64 then appendDigits longer cs else (n, c :: cs)

/-- A number without fraction and exponent. A negative one needs 63 bits, and minus zero is a
double. -/
def ofInteger (negative : Bool) (n : Nat) : Json :=
  if !negative then .int n
  else if n = 0 || 2 ^ 63 < n then .float (Double.ofNat n).negate
  else .int (-n)

/-- A number from its digits before and after the point and its exponent. Digits before the point
that are left over count as zeros, and those after it do not count at all. -/
def ofDigits (negative : Bool) (whole fraction : List Char) (exponent : Option Int) : Json :=
  let (n, extra) := appendDigits 0 whole
  if extra.isEmpty && fraction.isEmpty && exponent.isNone then ofInteger negative n
  else
    let (n, dropped) := appendDigits n fraction
    let places : Int := fraction.length - dropped.length
    match Double.scale? n (exponent.getD 0 + extra.length - places) with
    | none => .unreadable
    | some d => .float (if negative then d.negate else d)

/-- The exponent of a number, `e` included. -/
def exponent? : List Char → Option (Option Int)
  | [] => some none
  | e :: rest =>
    let (negative, digits) := match rest with
      | '+' :: ds => (false, ds)
      | '-' :: ds => (true, ds)
      | ds => (false, ds)
    if (e = 'e' || e = 'E') && !digits.isEmpty && digits.all Char.isDigit then
      let n : Int := Nat.ofDigitChars 10 digits 0
      some (some (if negative then -n else n))
    else none

/-- A whole numeral. A leading zero stands alone, and a point has digits on both sides. -/
def numeral? (cs : List Char) : Option Json := do
  let (negative, cs) := match cs with
    | '-' :: rest => (true, rest)
    | rest => (false, rest)
  let whole := cs.takeWhile Char.isDigit
  let rest := cs.dropWhile Char.isDigit
  if whole.isEmpty || (whole.head? = some '0' && whole.length != 1) then none
  else match rest with
    | '.' :: rest =>
      let fraction := rest.takeWhile Char.isDigit
      if fraction.isEmpty then none
      else some (ofDigits negative whole fraction (← exponent? (rest.dropWhile Char.isDigit)))
    | rest => some (ofDigits negative whole [] (← exponent? rest))

end ShardQuery.Json
