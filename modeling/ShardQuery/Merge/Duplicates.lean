import ShardQuery.Ledger
import ShardQuery.Value.Encoding

/-!
Rows that more than one shard returns. A row is known by the canonical encoding of its primary key.
-/

namespace ShardQuery

structure DuplicateSet where
  /-- The fields of the primary key. -/
  fields : List String
  /-- The keys of the rows seen so far. -/
  seen : List Bytes := []
  /-- Bytes charged for the keys. -/
  memory : Nat := 0
  deriving Inhabited, Repr

namespace DuplicateSet

/-- The values of a row's primary key. -/
def keyOf (fields : List String) (row : Value) : List Value := fields.map row.field

/-- Memory held by a key: its buffer and a header of 24 bytes. -/
def keySize (fields : List String) (row : Value) : Nat :=
  ((Buffer.withCapacity (16 * fields.length)).appendKeys (keyOf fields row)).capacity + 24

/-- What a row is to the set. -/
inductive Verdict where
  | known
  /-- A new row, the bytes that its key costs, and the set that has it. -/
  | new (cost : Nat) (set : DuplicateSet)
  /-- No row with a primary key. -/
  | refused (e : QueryError)

/-- Looks a row up. -/
def inspect (d : DuplicateSet) (row : Value) : Verdict :=
  match row.record? with
  | none => .refused (.defect s!"duplicate elimination needs records, got {row.typeName}")
  | some _ =>
    let key := keyBytes (keyOf d.fields row)
    if d.seen.contains key then .known
    else
      let cost := keySize d.fields row
      .new cost { d with seen := key :: d.seen, memory := d.memory + cost }

/-- Tells whether a row was seen before, and charges for it if it was not. -/
def check (d : DuplicateSet) (row : Value) (ledger : Ledger) :
    Except QueryError (Bool × DuplicateSet × Ledger) :=
  match d.inspect row with
  | .known => .ok (true, d, ledger)
  | .new cost d => do return (false, d, ← ledger.charge cost)
  | .refused e => .error e

/-- Forgets everything. -/
def clear (d : DuplicateSet) : DuplicateSet := { d with seen := [], memory := 0 }

end DuplicateSet
end ShardQuery
