import ShardQuery.Error

/-!
What happens to a query, as it is logged.
-/

namespace ShardQuery

inductive LogLevel where
  | debug
  | info
  | warn
  deriving DecidableEq, Repr

def LogLevel.text : LogLevel → String
  | .debug => "DEBUG"
  | .info => "INFO"
  | .warn => "WARN"

/-- A field of a log entry. -/
inductive LogField where
  | number (n : Int)
  | text (s : String)
  | flag (b : Bool)
  deriving DecidableEq, Inhabited, Repr

inductive Event where
  | queryStart (sortedReceive : Bool)
  /-- A call returned rows and a token. -/
  | querySuspended (rows sequence : Nat)
  | queryComplete (readUnits : Nat)
  /-- The caller gave the query up. -/
  | queryAbandoned
  | queryFailed (e : QueryError)
  | fetchIssued (limit : Nat)
  | fetchFailed (e : QueryError)
  | fetchCancelled
  | sortPhase1Complete (partitions : Nat)
  | virtualScanSeeded (id shard partition : Int)
  | duplicateDropped
  | memoryExceeded (used requested limit : Nat)
  deriving DecidableEq, Inhabited, Repr

namespace Event

def name : Event → String
  | .queryStart _ => "QUERY_BEGIN"
  | .querySuspended _ _ => "QUERY_SUSPENDED"
  | .queryComplete _ => "QUERY_COMPLETE"
  | .queryAbandoned => "QUERY_ABANDONED"
  | .queryFailed _ => "QUERY_FAILED"
  | .fetchIssued _ => "FETCH_ISSUED"
  | .fetchFailed _ => "FETCH_FAILED"
  | .fetchCancelled => "FETCH_CANCELLED"
  | .sortPhase1Complete _ => "SORT_PHASE1_COMPLETE"
  | .virtualScanSeeded _ _ _ => "VIRTUAL_SCAN_SEEDED"
  | .duplicateDropped => "DUPLICATE_DROPPED"
  | .memoryExceeded _ _ _ => "MEMORY_EXCEEDED"

/-- Whether the event ends the query for good. -/
def isFatal : Event → Bool
  | .memoryExceeded _ _ _ => true
  | _ => false

def level : Event → LogLevel
  | .queryStart _ | .queryComplete _ | .queryAbandoned | .sortPhase1Complete _ => .info
  | .queryFailed _ | .fetchFailed _ | .memoryExceeded _ _ _ => .warn
  | .querySuspended _ _ | .fetchIssued _ | .fetchCancelled | .virtualScanSeeded _ _ _
  | .duplicateDropped => .debug

def fields : Event → List (String × LogField)
  | .queryStart sorted => [("sorted_receive", .flag sorted)]
  | .querySuspended rows sequence => [("rows", .number rows), ("sequence", .number sequence)]
  | .queryComplete units => [("read_units", .number units)]
  | .queryFailed e => [("code", .text e.code), ("retryable", .flag e.isRetryable)]
  | .fetchIssued limit => [("limit", .number limit)]
  | .fetchFailed e => [("retryable", .flag e.isRetryable)]
  | .sortPhase1Complete partitions => [("partitions", .number partitions)]
  | .virtualScanSeeded id shard partition =>
    [("id", .number id), ("shard_id", .number shard), ("partition_id", .number partition)]
  | .memoryExceeded used requested limit =>
    [("used", .number used), ("requested", .number requested), ("limit", .number limit)]
  | .queryAbandoned | .fetchCancelled | .duplicateDropped => []

end Event
end ShardQuery
