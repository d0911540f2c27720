import ShardQuery.Numerals

/-!
Instants in UTC, to the nanosecond.
-/

namespace ShardQuery

/-- Whole seconds since 1970-01-01T00:00:00Z and the nanoseconds after them. A leap second is
written as the second before it with between one and two billion nanoseconds. -/
structure Timestamp where
  seconds : Int
  nanos : Nat
  deriving DecidableEq, Inhabited, Repr

namespace Timestamp

/-- Nanoseconds since the epoch. -/
def epochNanos (t : Timestamp) : Int := t.seconds * 10 ^ 9 + t.nanos

/-- The nanosecond count, where it fits 64 bits. -/
def epochNanos? (t : Timestamp) : Option Int64 :=
  if -2 ^ 63 ≤ t.epochNanos ∧ t.epochNanos < 2 ^ 63 then some (Int64.ofInt t.epochNanos) else none

def isLeapSecond (t : Timestamp) : Bool := 10 ^ 9 ≤ t.nanos

end Timestamp
end ShardQuery
