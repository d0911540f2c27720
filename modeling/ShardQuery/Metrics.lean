import ShardQuery.Event
import ShardQuery.Text.Json

/-!
Counters of what the queries of one client did.
-/

namespace ShardQuery

structure Metrics where
  calls : Nat := 0
  fetches : Nat := 0
  /-- Fetches that failed or were cancelled. -/
  fetchFailures : Nat := 0
  rowsReturned : Nat := 0
  duplicatesDropped : Nat := 0
  queriesCompleted : Nat := 0
  queriesAbandoned : Nat := 0
  deriving DecidableEq, Inhabited, Repr

namespace Metrics

/-- Counters have 64 bits and start again from zero. -/
def wrap (n : Nat) : Nat := n % 2 ^ 64

def countCall (m : Metrics) : Metrics := { m with calls := wrap (m.calls + 1) }

def countRows (m : Metrics) (rows : Nat) : Metrics :=
  { m with rowsReturned := wrap (m.rowsReturned + rows) }

/-- Counts an event, if it is one that is counted. -/
def observe (m : Metrics) : Event → Metrics
  | .fetchIssued _ => { m with fetches := wrap (m.fetches + 1) }
  | .fetchFailed _ => { m with fetchFailures := wrap (m.fetchFailures + 1) }
  | .duplicateDropped => { m with duplicatesDropped := wrap (m.duplicatesDropped + 1) }
  | .queryComplete _ => { m with queriesCompleted := wrap (m.queriesCompleted + 1) }
  | .queryAbandoned => { m with queriesAbandoned := wrap (m.queriesAbandoned + 1) }
  | _ => m

/-- The counters with their names. -/
def entries (m : Metrics) : List (String × Nat) :=
  [("calls", m.calls), ("fetches", m.fetches), ("fetch_failures", m.fetchFailures),
   ("rows_returned", m.rowsReturned), ("duplicates_dropped", m.duplicatesDropped),
   ("queries_completed", m.queriesCompleted), ("queries_abandoned", m.queriesAbandoned)]

def text (m : Metrics) : String := (Json.obj (m.entries.map fun e => (e.1, .int e.2))).text

end Metrics
end ShardQuery
