import ShardQuery.Fetch.Request
import ShardQuery.Ledger
import ShardQuery.Value.Order

/-!
Feeds: the sources that a scan draws on, each with the rows that were fetched and not yet used.
-/

namespace ShardQuery

/-- A shard, a partition or a virtual scan, seen from the query. -/
structure Feed where
  id : Int
  target : Target
  rows : List Value := []
  /-- Bytes charged for the rows. -/
  memory : Nat := 0
  continuation : Option Bytes := none
  /-- Whether anything was fetched from this feed yet. -/
  started : Bool := false
  /-- What the first request has to say about the scan. -/
  virtualScan : Option VirtualScan := none
  deriving Inhabited, Repr

namespace Feed

/-- A part of a shard's scan that the servers announced. -/
def ofVirtualScan (id : Int) (scan : VirtualScan) : Feed :=
  { id, target := .shard scan.shard, virtualScan := some scan }

/-- A partition found in the discovery phase, with its first rows, which are charged already. -/
def ofPartition (id : Int) (rows : List Value) (continuation : Option Bytes) : Feed :=
  { id, target := .partition id, rows, memory := sizeOfRows rows, continuation, started := true }

def hasRows (f : Feed) : Bool := !f.rows.isEmpty

/-- Whether the servers may still hold rows of this feed. -/
def hasRemote (f : Feed) : Bool := !f.started || f.continuation.isSome

def isExhausted (f : Feed) : Bool := !f.hasRows && !f.hasRemote

/-- What to ask for next. -/
def request (f : Feed) (limit : Nat) : FetchRequest :=
  { target := f.target
    limit
    continuation := f.continuation
    virtualScan := if f.started then none else f.virtualScan }

/-- Adds a batch that is charged. -/
def stage (f : Feed) (rows : List Value) (continuation : Option Bytes) : Feed :=
  { f with
    rows := f.rows ++ rows
    memory := f.memory + sizeOfRows rows
    continuation
    started := true }

/-- Adds a batch if the budget allows all of it. -/
def stageCharged (f : Feed) (rows : List Value) (continuation : Option Bytes) (ledger : Ledger) :
    Except QueryError (Feed × Ledger) := do
  let ledger ← ledger.charge (sizeOfRows rows)
  return (f.stage rows continuation, ledger)

/-- The first row, whose charge is given back, and the feed without it. -/
def pop? (f : Feed) : Option (Value × Feed) :=
  match f.rows with
  | [] => none
  | row :: rest => some (row, { f with rows := rest, memory := f.memory - row.size })

/-- Drops the rows. -/
def clear (f : Feed) : Feed := { f with rows := [], memory := 0 }

/-- The order in which a merge turns to its feeds. One without rows comes first, so that it is
refilled before any row is yielded; else the first rows decide, and then the ids. -/
def compare (specs : List SortSpec) (f g : Feed) : Ordering :=
  match f.rows, g.rows with
  | [], [] => Ord.compare f.id g.id
  | [], _ :: _ => .lt
  | _ :: _, [] => .gt
  | a :: _, b :: _ => (compareRows specs a b).then (Ord.compare f.id g.id)

end Feed
end ShardQuery
