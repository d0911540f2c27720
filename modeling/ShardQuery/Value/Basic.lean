import ShardQuery.Value.Double
import ShardQuery.Value.Timestamp

/-!
The values that flow through a query: three kinds of "nothing", scalars, arrays and records.
-/

namespace ShardQuery

/-- Bytes without a meaning of their own. -/
abbrev Bytes := List UInt8

/-- A value produced or consumed by a plan step. -/
inductive Value where
  /-- No value at all, such as a field that a record does not have. -/
  | empty
  /-- A null stored in a document. -/
  | jsonNull
  /-- The null of the query language. -/
  | null
  | boolean (b : Bool)
  | integer (n : Int32)
  | long (n : Int64)
  | double (d : Double)
  | text (s : String)
  | binary (bytes : Bytes)
  | timestamp (t : Timestamp)
  | array (items : List Value)
  /-- A record: named fields in the order in which they were first set. -/
  | map (fields : List (String × Value))
  deriving Inhabited, Repr

/-- The fields of a map value. -/
abbrev Record := List (String × Value)

namespace Record

/-- The value of the first field of that name. -/
def get? (r : Record) (name : String) : Option Value :=
  (r.find? (·.1 = name)).map (·.2)

/-- Sets a field. A field that is already there keeps its place. -/
def put : Record → String → Value → Record
  | [], name, v => [(name, v)]
  | (n, w) :: rest, name, v => if n = name then (n, v) :: rest else (n, w) :: put rest name v

/-- Sets the given fields one after the other. -/
def ofFields (fields : List (String × Value)) : Record :=
  fields.foldl (fun r f => put r f.1 f.2) []

end Record

namespace Value

/-- True of the three kinds of nothing. -/
def isNullLike : Value → Bool
  | .empty | .jsonNull | .null => true
  | _ => false

def isEmpty : Value → Bool
  | .empty => true
  | _ => false

def isNull : Value → Bool
  | .null => true
  | _ => false

def isNumeric : Value → Bool
  | .integer _ | .long _ | .double _ => true
  | _ => false

/-- The fields, if the value is a record. -/
def record? : Value → Option Record
  | .map fields => some fields
  | _ => none

/-- The whole number that a value of an integral type holds. -/
def toLong? : Value → Option Int64
  | .integer n => some n.toInt64
  | .long n => some n
  | _ => none

/-- The nearest double of a number. -/
def toDouble? : Value → Option Double
  | .integer n => some (.ofLong n.toInt64)
  | .long n => some (.ofLong n)
  | .double d => some d
  | _ => none

/-- The type's name in error messages. -/
def typeName : Value → String
  | .empty => "EMPTY"
  | .jsonNull => "JSON_NULL"
  | .null => "NULL"
  | .boolean _ => "BOOLEAN"
  | .integer _ => "INTEGER"
  | .long _ => "LONG"
  | .double _ => "DOUBLE"
  | .text _ => "STRING"
  | .binary _ => "BINARY"
  | .timestamp _ => "TIMESTAMP"
  | .array _ => "ARRAY"
  | .map _ => "MAP"

/-- A field of a row. A row that is not a record has no fields. -/
def field (row : Value) (name : String) : Value :=
  ((row.record?.bind fun r => r.get? name)).getD .empty

/-- What an absent value becomes where the query language needs a null. -/
def orNull : Value → Value
  | .empty => .null
  | v => v

mutual

/-- Equality of kind and content; doubles are compared as numbers, so a NaN equals nothing. -/
def same : Value → Value → Bool
  | .empty, .empty | .jsonNull, .jsonNull | .null, .null => true
  | .boolean a, .boolean b => a == b
  | .integer a, .integer b => a == b
  | .long a, .long b => a == b
  | .double a, .double b => a.numericEq b
  | .text a, .text b => a == b
  | .binary a, .binary b => a == b
  | .timestamp a, .timestamp b => a == b
  | .array xs, .array ys => sameItems xs ys
  | .map xs, .map ys => sameFields xs ys
  | _, _ => false

def sameItems : List Value → List Value → Bool
  | [], [] => true
  | x :: xs, y :: ys => same x y && sameItems xs ys
  | _, _ => false

def sameFields : List (String × Value) → List (String × Value) → Bool
  | [], [] => true
  | (m, x) :: xs, (n, y) :: ys => m == n && same x y && sameFields xs ys
  | _, _ => false

end

mutual

/-- Estimated memory held by a value whose buffers are full, as those of every copy are: 32 bytes and
what it owns beyond them. -/
def size : Value → Nat
  | .text s => 32 + s.utf8ByteSize
  | .binary bytes => 32 + bytes.length
  | .array items => 32 + sizeItems items
  | .map fields => 32 + sizeFields fields
  | _ => 32

def sizeItems : List Value → Nat
  | [] => 0
  | v :: rest => size v + sizeItems rest

def sizeFields : List (String × Value) → Nat
  | [] => 0
  | (name, v) :: rest => name.utf8ByteSize + size v + sizeFields rest

end

end Value

/-- Total size of some rows. -/
def sizeOfRows (rows : List Value) : Nat := Value.sizeItems rows

end ShardQuery
