import ShardQuery.Value.Decimal

/-!
JSON documents and their compact text.
-/

namespace ShardQuery

/-- A JSON document. Names may repeat, so that a reader can refuse a repeated one. -/
inductive Json where
  /-- A part that keeps to the grammar and yet has no value: a number too large for a double, a text
  that is not Unicode, an object with such a text for a name. A reader may pass it over. -/
  | unreadable
  | null
  | bool (b : Bool)
  /-- A number without fraction and exponent that fits 64 bits. -/
  | int (n : Int)
  | float (d : Double)
  | str (s : String)
  | arr (items : List Json)
  | obj (fields : List (String × Json))
  deriving Inhabited, Repr

namespace Json

/-- Four hexadecimal digits. -/
def hex4 (n : Nat) : List Char :=
  let digits := Nat.toDigits 16 n
  List.replicate (4 - digits.length) '0' ++ digits

/-- A character inside a text. -/
def escape (c : Char) : List Char :=
  if c = '"' then ['\\', '"']
  else if c = '\\' then ['\\', '\\']
  else if c = '\n' then ['\\', 'n']
  else if c = '\t' then ['\\', 't']
  else if c = '\r' then ['\\', 'r']
  else if c.toNat = 8 then ['\\', 'b']
  else if c.toNat = 12 then ['\\', 'f']
  else if c.toNat < 32 then ['\\', 'u'] ++ hex4 c.toNat
  else [c]

def renderText (s : String) : List Char := ['"'] ++ s.toList.flatMap escape ++ ['"']

def renderInt (n : Int) : List Char :=
  if n < 0 then '-' :: Nat.toDigits 10 n.natAbs else Nat.toDigits 10 n.natAbs

/-- Digits and a power of ten as a number: plain between `1e-5` and `1e16`, else with an
exponent. -/
def renderDecimal (digits : List Char) (exponent : Int) : List Char :=
  let point := exponent + digits.length
  if 0 ≤ exponent && point ≤ 16 then
    digits ++ List.replicate exponent.toNat '0' ++ ['.', '0']
  else if 0 < point && point ≤ 16 then
    digits.take point.toNat ++ ['.'] ++ digits.drop point.toNat
  else if -5 < point && point ≤ 0 then
    ['0', '.'] ++ List.replicate (-point).toNat '0' ++ digits
  else
    let fraction := if digits.length ≤ 1 then [] else '.' :: digits.drop 1
    digits.take 1 ++ fraction ++ ['e'] ++ renderInt (point - 1)

/-- A double in the fewest digits that read back. One that is not finite is written as null. -/
def renderDouble (d : Double) : List Char :=
  if d.exponent = 2047 then "null".toList
  else
    let (digits, exponent) := d.shortest
    let written := if digits = 0 then "0.0".toList
      else renderDecimal (Nat.toDigits 10 digits) exponent
    if d.negative then '-' :: written else written

mutual

/-- The compact text of a document. What has no value is written as null. -/
def render : Json → List Char
  | .unreadable | .null => "null".toList
  | .bool b => if b then "true".toList else "false".toList
  | .int n => renderInt n
  | .float d => renderDouble d
  | .str s => renderText s
  | .arr [] => ['[', ']']
  | .arr (x :: xs) => '[' :: render x ++ renderItems xs
  | .obj [] => ['\x7b', '\x7d']
  | .obj ((name, x) :: xs) => '\x7b' :: renderText name ++ ':' :: render x ++ renderFields xs

/-- The items after the first, and the closing bracket. -/
def renderItems : List Json → List Char
  | [] => [']']
  | x :: xs => ',' :: render x ++ renderItems xs

/-- The fields after the first, and the closing brace. -/
def renderFields : List (String × Json) → List Char
  | [] => ['\x7d']
  | (name, x) :: xs => ',' :: renderText name ++ ':' :: render x ++ renderFields xs

end

def text (j : Json) : String := String.ofList j.render

end Json
end ShardQuery
