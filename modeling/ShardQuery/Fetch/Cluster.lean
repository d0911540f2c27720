import ShardQuery.Fetch.Request
import ShardQuery.Text.Json.Reader
import ShardQuery.Value.Encoding

/-!
A cluster held in memory: partitions, each owned by a shard, that answer requests as servers would.
-/

namespace ShardQuery

/-- A place in a scan. -/
structure Cursor where
  /-- Which part of a shard that is scanned in parts; the base scan is part zero. -/
  subset : Nat
  offset : Nat
  deriving DecidableEq, Inhabited, Repr

namespace Cursor

def start : Cursor := ⟨0, 0⟩

def toJson (c : Cursor) : Json := .obj [("subset", .int c.subset), ("offset", .int c.offset)]

/-- The bytes that a client sends back. -/
def encode (c : Cursor) : Bytes := textBytes c.toJson.text

def ofJson? (j : Json) : Option Cursor := do
  let fields ← Json.fieldsOf? ["subset", "offset"] j
  some {
    subset := ← Json.required fields "subset" Json.word32?
    offset := ← Json.required fields "offset" Json.word64? }

def decode (bytes : Bytes) : Except FetchError Cursor :=
  match (Json.ofBytes? bytes).bind ofJson? with
  | some c => .ok c
  | none => .error (.transport "malformed continuation")

/-- Where a request without continuation starts. -/
def ofContinuation : Option Bytes → Except FetchError Cursor
  | some bytes => decode bytes
  | none => .ok start

end Cursor

/-- The rows of one partition. -/
structure Partition where
  id : Int
  shard : Int
  rows : List Value
  deriving Inhabited, Repr

structure Cluster where
  /-- In the order of their ids. -/
  partitions : List Partition := []
  /-- The order in which partitions and shards are scanned. -/
  specs : List SortSpec := []
  /-- How many partitions each batch of the discovery phase reports. -/
  phase1Batch : Nat := 2
  /-- Into how many parts the scan of a shard is split. -/
  splits : List (Int × Nat) := []
  deriving Inhabited, Repr

namespace Cluster

/-- Adds a partition, in place of one of the same id. -/
def addPartition (c : Cluster) (p : Partition) : Cluster :=
  { c with partitions := c.partitions.filter (·.id < p.id) ++ p ::
      c.partitions.filter (p.id < ·.id) }

def setPhase1Batch (c : Cluster) (count : Nat) : Cluster := { c with phase1Batch := max count 1 }

def splitShard (c : Cluster) (shard : Int) (ways : Nat) : Cluster :=
  { c with splits := (shard, max ways 1) :: c.splits }

/-- The ids of the shards, each once, ascending. -/
def shards (c : Cluster) : List Int :=
  ((c.partitions.map (·.shard)).mergeSort).eraseDups

def ways (c : Cluster) (shard : Int) : Nat := (c.splits.lookup shard).getD 1

/-- What a batch of rows costs. -/
def costOf (rows : List Value) : Capacity :=
  ⟨max rows.length 1, max ((sizeOfRows rows + 1023) / 1024) 1, 0⟩

/-- The rows from a place on, as many as the limit allows. -/
def page (rows : List Value) (cursor : Cursor) (limit : Nat) : Batch :=
  let last := min (cursor.offset + limit) rows.length
  let shown := (rows.drop cursor.offset).take limit
  { rows := shown
    consumed := costOf shown
    continuation :=
      if last < rows.length then some (Cursor.encode ⟨cursor.subset, last⟩) else none }

/-- A partition's rows in the order of scans. -/
def partitionRows (c : Cluster) (id : Int) : Except FetchError (List Value) :=
  match c.partitions.find? (·.id == id) with
  | some p => .ok (sortRows c.specs p.rows)
  | none => .error (.transport s!"unknown partition {id}")

def ofShard (c : Cluster) (shard : Int) : List Partition :=
  c.partitions.filter (·.shard == shard)

/-- A shard's rows in the order of scans. -/
def shardRows (c : Cluster) (shard : Int) : Except FetchError (List Value) :=
  if (c.ofShard shard).isEmpty then .error (.transport s!"unknown shard {shard}")
  else .ok (sortRows c.specs ((c.ofShard shard).flatMap (·.rows)))

/-- The rows whose place has this residue. Places are told in words of 32 bits, so behind the last
of these they start over. -/
def everyNth (ways subset : Nat) (rows : List Value) : List Value :=
  (rows.zipIdx.filter fun p => p.2 % 2 ^ 32 % ways == subset).map (·.1)

/-- The part of a shard's scan that a virtual scan names. -/
def subsetOf (scan : VirtualScan) : Except FetchError Nat :=
  match scan.primaryKey with
  | [a, b, c, d] => .ok (((a.toNat * 256 + b.toNat) * 256 + c.toNat) * 256 + d.toNat)
  | _ => .error (.transport "malformed virtual scan resume key")

/-- Where a request to a shard starts. -/
def shardCursor (request : FetchRequest) : Except FetchError Cursor :=
  match request.continuation, request.virtualScan with
  | some bytes, _ => Cursor.decode bytes
  | none, some scan => return ⟨← subsetOf scan, 0⟩
  | none, none => .ok .start

/-- The parts of a shard's scan beside the base scan. -/
def virtualScans (c : Cluster) (shard : Int) : List VirtualScan :=
  let partition := ((c.ofShard shard).head?.map (·.id)).getD 0
  (List.range' 1 (c.ways shard - 1)).map fun subset =>
    ⟨shard, partition, bigEndian 4 subset, [], true⟩

/-- A page of a shard's scan. The first page of the base scan announces the other parts. -/
def answerShard (c : Cluster) (shard : Int) (request : FetchRequest) (limit : Nat) :
    Except FetchError Batch := do
  let cursor ← shardCursor request
  if c.ways shard ≤ cursor.subset then
    throw (.transport s!"virtual scan {cursor.subset} out of range for shard {shard}")
  let rows ← c.shardRows shard
  let batch := page (everyNth (c.ways shard) cursor.subset rows) cursor limit
  if request.continuation.isNone && request.virtualScan.isNone then
    return { batch with virtualScans := c.virtualScans shard }
  else return batch

/-- The share of a batch of the discovery phase that one partition gets. -/
def slice (c : Cluster) (share : Nat) (p : Partition) : List Value × Option Bytes :=
  let rows := sortRows c.specs p.rows
  (rows.take share,
    if share < rows.length then some (Cursor.encode ⟨0, share⟩) else none)

/-- The next partitions with their first rows. These are counted in words of 32 bits with a sign. -/
def answerPhase1 (c : Cluster) (request : FetchRequest) (limit : Nat) :
    Except FetchError Batch := do
  let first := (← Cursor.ofContinuation request.continuation).offset
  let last := min (first + c.phase1Batch) c.partitions.length
  let found := (c.partitions.drop first).take c.phase1Batch
  let slices := found.map (c.slice (max (limit / max found.length 1) 1))
  let rows := slices.flatMap (·.1)
  return {
    rows := rows
    consumed := costOf rows
    continuation :=
      if last < c.partitions.length then some (Cursor.encode ⟨0, last⟩) else none
    phase1 := some {
      inPhase1 := last < c.partitions.length
      partitions := found.map (·.id)
      counts := slices.map fun s => (Int32.ofNat s.1.length).toInt
      keys := slices.map (·.2) } }

/-- The answer to a request. A limit of zero counts as one. -/
def answer (c : Cluster) (request : FetchRequest) : Except FetchError Batch :=
  let limit := max request.limit 1
  match request.target with
  | .any => do
    let cursor ← Cursor.ofContinuation request.continuation
    return page (c.partitions.flatMap (·.rows)) cursor limit
  | .partition id => do
    let cursor ← Cursor.ofContinuation request.continuation
    return page (← c.partitionRows id) cursor limit
  | .shard shard => c.answerShard shard request limit
  | .sortPhase1 => c.answerPhase1 request limit

end Cluster
end ShardQuery
