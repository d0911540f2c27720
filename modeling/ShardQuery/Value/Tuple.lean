import ShardQuery.Value.Encoding

/-!
Tuples of values by which rows are grouped.
-/

namespace ShardQuery

/-- Tuples of one length whose values the order does not tell apart belong to one group. -/
def sameGroup (xs ys : List Value) : Bool :=
  xs.length == ys.length && (xs.zip ys).all fun p => p.1.equiv p.2

/-- Memory held by a grouping tuple and its encoding, in the buffer that grew with it. -/
def groupSize (vs : List Value) : Nat :=
  sizeOfRows vs + ((Buffer.withCapacity (10 * vs.length)).appendKeys vs).capacity

/-- Memory held by a copy of a grouping tuple. A copied buffer has no room to spare. -/
def groupCopySize (vs : List Value) : Nat := sizeOfRows vs + (keyBytes vs).length

end ShardQuery
