import ShardQuery.Error
import ShardQuery.Value.Basic

/-!
What a query asks of the servers and what they answer.
-/

namespace ShardQuery

/-- Resources used up on the servers. -/
structure Capacity where
  readUnits : Nat
  readKb : Nat
  writeUnits : Nat
  deriving DecidableEq, Inhabited, Repr

namespace Capacity

def zero : Capacity := ⟨0, 0, 0⟩

def isZero (c : Capacity) : Bool := c == zero

instance : Add Capacity :=
  ⟨fun a b => ⟨a.readUnits + b.readUnits, a.readKb + b.readKb, a.writeUnits + b.writeUnits⟩⟩

end Capacity

/-- Where a request goes. -/
inductive Target where
  /-- Wherever the servers see fit. -/
  | any
  /-- The discovery of the partitions of a sorted scan. -/
  | sortPhase1
  | shard (id : Int)
  | partition (id : Int)
  deriving DecidableEq, Inhabited, Repr

/-- A part of a shard's scan that the servers want scanned on its own. -/
structure VirtualScan where
  shard : Int
  partition : Int
  primaryKey : Bytes
  secondaryKey : Bytes
  moveAfter : Bool
  deriving DecidableEq, Inhabited, Repr

structure FetchRequest where
  target : Target
  /-- How many rows to send at most. -/
  limit : Nat
  /-- What the last batch of this source said to send with the next request. -/
  continuation : Option Bytes := none
  virtualScan : Option VirtualScan := none
  deriving DecidableEq, Inhabited, Repr

/-- What a batch of the discovery phase says about the partitions it found. The three lists run in
step. -/
structure Phase1Info where
  /-- Whether there are more partitions to be found. -/
  inPhase1 : Bool
  partitions : List Int
  /-- How many of the batch's rows belong to each partition. -/
  counts : List Int
  /-- How to go on with each partition, if it has more rows. -/
  keys : List (Option Bytes)
  deriving DecidableEq, Inhabited, Repr

structure Batch where
  rows : List Value
  /-- How to go on with the source, if it has more rows. -/
  continuation : Option Bytes := none
  consumed : Capacity := .zero
  phase1 : Option Phase1Info := none
  virtualScans : List VirtualScan := []
  deriving Inhabited, Repr

end ShardQuery
