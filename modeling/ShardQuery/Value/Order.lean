import ShardQuery.Value.Basic

/-!
The total order over values. A value is first reduced to a `Key`, which forgets everything the
order does not see (number width, field order, which NaN), and keys are compared by structure.

Numbers come before timestamps, then texts, booleans, binaries, arrays and records. The three kinds
of nothing come after all of these, or before them if asked.
-/

namespace ShardQuery

/-- What the order sees of a value. -/
inductive Key where
  /-- A number: the largest integer not above it and the rest, see `Double.rest`. -/
  | number (whole : Int) (rest : Nat)
  | time (seconds : Int) (nanos : Nat)
  | text (s : String)
  | boolean (b : Bool)
  | binary (bytes : List UInt8)
  | array (items : List Key)
  /-- The fields sorted by name. -/
  | map (fields : List (String × Key))
  /-- Nothing: no value, a document null or a query null, in this order. -/
  | nothing (rank : Nat)
  deriving Inhabited, Repr

/-- Fields in the order of their names. Fields of one name stay in their order. -/
def sortByName {α : Type} (fields : List (String × α)) : List (String × α) :=
  fields.mergeSort fun a b => a.1 ≤ b.1

mutual

def Value.key : Value → Key
  | .empty => .nothing 0
  | .jsonNull => .nothing 1
  | .null => .nothing 2
  | .boolean b => .boolean b
  | .integer n => .number n.toInt 0
  | .long n => .number n.toInt 0
  | .double d => .number d.whole d.rest
  | .text s => .text s
  | .binary bytes => .binary bytes
  | .timestamp t => .time t.seconds t.nanos
  | .array items => .array (keyItems items)
  | .map fields => .map (sortByName (keyFields fields))

def Value.keyItems : List Value → List Key
  | [] => []
  | v :: rest => v.key :: keyItems rest

def Value.keyFields : List (String × Value) → List (String × Key)
  | [] => []
  | (name, v) :: rest => (name, v.key) :: keyFields rest

end

namespace Key

/-- The place of a key's kind among the kinds. -/
def kindRank : Key → Nat
  | .number _ _ => 0
  | .time _ _ => 1
  | .text _ => 2
  | .boolean _ => 3
  | .binary _ => 4
  | .array _ => 5
  | .map _ => 6
  | .nothing _ => 7

def isNothing : Key → Bool
  | .nothing _ => true
  | _ => false

/-- The order of keys of different kinds. -/
def compareKinds (nullsFirst : Bool) (a b : Key) : Ordering :=
  if nullsFirst && a.isNothing != b.isNothing then
    if a.isNothing then .lt else .gt
  else Ord.compare a.kindRank b.kindRank

mutual

/-- The order of keys. `nullsFirst` moves the three kinds of nothing to the front and keeps their
order among themselves. -/
def compare (nullsFirst : Bool) : Key → Key → Ordering
  | .number a r, .number b s => (Ord.compare a b).then (Ord.compare r s)
  | .time s m, .time t n => (Ord.compare s t).then (Ord.compare m n)
  | .text a, .text b => Ord.compare a b
  | .boolean a, .boolean b => Ord.compare a b
  | .binary a, .binary b => Ord.compare (a.map UInt8.toNat) (b.map UInt8.toNat)
  | .array xs, .array ys => compareItems nullsFirst xs ys
  | .map xs, .map ys => compareFields nullsFirst xs ys
  | .nothing a, .nothing b => Ord.compare a b
  | a, b => compareKinds nullsFirst a b

def compareItems (nullsFirst : Bool) : List Key → List Key → Ordering
  | [], [] => .eq
  | [], _ :: _ => .lt
  | _ :: _, [] => .gt
  | x :: xs, y :: ys => (compare nullsFirst x y).then (compareItems nullsFirst xs ys)

def compareFields (nullsFirst : Bool) : List (String × Key) → List (String × Key) → Ordering
  | [], [] => .eq
  | [], _ :: _ => .lt
  | _ :: _, [] => .gt
  | (m, x) :: xs, (n, y) :: ys =>
    ((Ord.compare m n).then (compare nullsFirst x y)).then (compareFields nullsFirst xs ys)

end

end Key

/-- The total order over values. -/
def Value.compare (nullsFirst : Bool) (a b : Value) : Ordering :=
  a.key.compare nullsFirst b.key

/-- Two values that the order does not tell apart, such as an integer and the double equal to it. -/
def Value.equiv (a b : Value) : Bool := (a.compare false b).isEq

/-- How one field is sorted. -/
structure SortSpec where
  field : String
  descending : Bool := false
  /-- Where nulls go, whatever the direction. -/
  nullsFirst : Bool := false
  deriving DecidableEq, Inhabited, Repr

/-- The order for one sort key. A descending key reverses the order, so the placement of nulls is
inverted beforehand and survives the reversal. -/
def SortSpec.compare (spec : SortSpec) (a b : Value) : Ordering :=
  if spec.descending then (a.compare (!spec.nullsFirst) b).swap else a.compare spec.nullsFirst b

/-- The order of rows: the first field on which they differ decides. -/
def compareRows : List SortSpec → Value → Value → Ordering
  | [], _, _ => .eq
  | spec :: rest, a, b =>
    (spec.compare (a.field spec.field) (b.field spec.field)).then (compareRows rest a b)

/-- Rows in the order of the specs. Rows that compare equal stay in their order. -/
def sortRows (specs : List SortSpec) (rows : List Value) : List Value :=
  rows.mergeSort fun a b => (compareRows specs a b).isLE

end ShardQuery
