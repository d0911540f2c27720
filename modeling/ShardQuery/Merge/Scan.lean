import ShardQuery.Merge.Duplicates
import ShardQuery.Merge.Feed
import ShardQuery.Merge.Heap
import ShardQuery.Operator.Control
import ShardQuery.Plan.Step

/-!
The leaf of every query: it asks the servers for rows and hands them on, merged in order if the
plan says so. Rows leave it one by one, and it says when it needs the next batch.
-/

namespace ShardQuery

/-- What a scan is doing. -/
inductive ScanPhase where
  /-- Passing on one stream as it comes. -/
  | plain
  /-- Finding the partitions of a sorted scan. -/
  | discovering
  | merging
  | done
  deriving DecidableEq, Inhabited, Repr

structure Scan where
  reg : Nat
  distribution : Distribution
  specs : List SortSpec
  phase : ScanPhase
  duplicates : Option DuplicateSet
  /-- The one stream of a plain scan. -/
  stream : Feed
  phase1Continuation : Option Bytes
  /-- The partitions found so far. -/
  discovered : List Int
  /-- The feeds of a merge, the next one to turn to on top. -/
  queue : Heap Feed
  /-- The id for the next virtual scan, unless all ids above the highest shard are used up. -/
  nextVirtualId : Option Int
  /-- Rows and bytes that came from partitions, from which the size of later batches is guessed. -/
  rowsStaged : Nat
  bytesStaged : Nat
  deriving Inhabited, Repr

namespace Scan

/-- The id after the given one, if 31 bits hold it. -/
def idAfter (id : Int) : Option Int := if id < 2 ^ 31 - 1 then some (id + 1) else none

theorem idAfter_eq_some_iff {id next : Int} :
    idAfter id = some next ↔ next = id + 1 ∧ next < 2 ^ 31 := by
  unfold idAfter
  split <;> simp <;> omega

theorem idAfter_eq_none_iff {id : Int} : idAfter id = none ↔ 2 ^ 31 ≤ id + 1 := by
  unfold idAfter
  split <;> simp <;> omega

def ofInfo (reg : Nat) (info : ReceiveInfo) (shards : List Int) : Except QueryError Scan := do
  let scan : Scan :=
    { reg
      distribution := info.distribution
      specs := info.specs
      phase := .plain
      duplicates := if info.primaryKey.isEmpty then none else some { fields := info.primaryKey }
      stream := { id := 0, target := .any }
      phase1Continuation := none
      discovered := []
      queue := .nil
      nextVirtualId := idAfter (shards.max?.getD 0)
      rowsStaged := 0
      bytesStaged := 0 }
  match info.distribution, info.specs with
  | _, [] | .singlePartition, _ => return scan
  | .allPartitions, _ => return { scan with phase := .discovering }
  | .allShards, _ =>
    if shards.isEmpty then
      throw (.protocol "sorted all-shards receive without a shard topology")
    let feeds := shards.map fun shard => { id := shard, target := .shard shard : Feed }
    return { scan with phase := .merging, queue := .ofList (Feed.compare info.specs) feeds }

/-- Bytes that the set of primary keys holds. -/
def duplicateMemory (s : Scan) : Nat := (s.duplicates.map (·.memory)).getD 0

/-- Hands on a row, unless another shard returned it before. -/
def yieldRow (s : Scan) (row : Value) (c : Control) : Step Scan :=
  match s.duplicates with
  | none => ⟨.row, s, c.setReg s.reg row⟩
  | some d =>
    match d.inspect row with
    | .known => ⟨.more, s, c.emit .duplicateDropped⟩
    | .refused e => ⟨.fail e, s, c⟩
    | .new cost d =>
      match c.charge cost with
      | (none, c) => ⟨.row, { s with duplicates := some d }, c.setReg s.reg row⟩
      | (some e, c) => ⟨.fail e, s, c⟩

/-- Asks for a batch, or stops if this call has had its fetch. -/
def ask (s : Scan) (c : Control) (limit : Except QueryError Nat)
    (request : Nat → FetchRequest) : Step Scan :=
  if c.fetchDone then ⟨.dry, s, c.suspend⟩
  else match limit with
    | .ok limit => ⟨.request (request limit), s, c⟩
    | .error e => ⟨.fail e, s, c⟩

/-- The average size of the rows that came from partitions. -/
def bytesPerRow (s : Scan) : Nat :=
  if s.rowsStaged = 0 then 1 else max (s.bytesStaged / s.rowsStaged) 1

/-- How many rows to ask for in a merge. Partitions are asked for as many as the budget is likely to
hold. -/
def mergeLimit (s : Scan) (c : Control) : Except QueryError Nat :=
  if s.distribution != .allPartitions then .ok c.config.batchLimit
  else
    let rows := (c.ledger.limit - s.duplicateMemory) / s.bytesPerRow
    if rows = 0 then
      .error (.memoryExceeded (max c.ledger.used (s.duplicateMemory + s.bytesPerRow))
        c.ledger.limit)
    else .ok (min rows c.config.partitionFetchCap)

def stepPlain (s : Scan) (c : Control) : Step Scan :=
  match s.stream.pop? with
  | some (row, stream) => yieldRow { s with stream } row (c.release row.size)
  | none =>
    if !s.stream.hasRemote then ⟨.dry, { s with phase := .done }, c⟩
    else s.ask c (.ok c.config.batchLimit) s.stream.request

/-- The request for the next batch of the discovery phase. -/
def phase1Request (s : Scan) (limit : Nat) : FetchRequest :=
  { target := .sortPhase1, limit, continuation := s.phase1Continuation }

/-- Adds a feed to the merge. -/
def enqueue (s : Scan) (f : Feed) : Scan :=
  { s with queue := s.queue.push (Feed.compare s.specs) f }

/-- Turns to the feed on top of the queue: its first row is the next one of the merge, unless it has
to be refilled. -/
def stepMerge (s : Scan) (c : Control) : Step Scan :=
  match s.queue.pop? (Feed.compare s.specs) with
  | none => ⟨.dry, { s with phase := .done }, c⟩
  | some (top, queue) =>
    let rest := { s with queue }
    match top.pop? with
    | some (row, top) =>
      yieldRow (if top.isExhausted then rest else rest.enqueue top) row (c.release row.size)
    | none =>
      if !top.hasRemote then ⟨.more, rest, c⟩
      else s.ask c (s.mergeLimit c) top.request

def step (s : Scan) (c : Control) : Step Scan :=
  match s.phase with
  | .done => ⟨.dry, s, c⟩
  | .plain => s.stepPlain c
  | .discovering => s.ask c (.ok c.config.batchLimit) s.phase1Request
  | .merging => s.stepMerge c

/-- Checks the counts and that no partition is reported twice, in the order of the report. -/
def checkCounts (seen : List Int) : List (Int × Int) → Except QueryError Unit
  | [] => .ok ()
  | (id, count) :: rest =>
    if count < 0 then .error (.protocol s!"negative result count {count} for partition {id}")
    else if seen.contains id then
      .error (.protocol s!"partition {id} reported twice in sort phase 1")
    else checkCounts (id :: seen) rest

/-- What a batch of the discovery phase must say. -/
def checkPhase1 (s : Scan) (batch : Batch) : Except QueryError Phase1Info := do
  let some info := batch.phase1
    | throw (.protocol "sort phase 1 batch without partition info")
  let n := info.partitions.length
  if info.counts.length != n || info.keys.length != n then
    throw (.protocol (s!"sort phase 1 reported {n} partitions, {info.counts.length} result " ++
      s!"counts and {info.keys.length} continuation keys"))
  checkCounts s.discovered (info.partitions.zip info.counts)
  if info.counts.sum != batch.rows.length then
    throw (.protocol (s!"sort phase 1 result counts sum to {info.counts.sum} but the batch has " ++
      s!"{batch.rows.length} rows"))
  if info.inPhase1 && batch.continuation.isNone then
    throw (.protocol "sort phase 1 in progress without a continuation")
  return info

/-- Cuts the rows of a batch into the shares of the partitions. -/
def cut : List Int → List Int → List (Option Bytes) → List Value →
    List (Int × List Value × Option Bytes)
  | id :: ids, count :: counts, key :: keys, rows =>
    (id, rows.take count.toNat, key) :: cut ids counts keys (rows.drop count.toNat)
  | _, _, _, _ => []

/-- The feed of a partition, unless there is nothing to come from it. -/
def partitionFeed? : Int × List Value × Option Bytes → Option Feed
  | (_, [], none) => none
  | (id, rows, key) => some (.ofPartition id rows key)

/-- Takes in a batch of the discovery phase that was checked and charged. -/
def addPartitions (s : Scan) (info : Phase1Info) (batch : Batch) : Scan :=
  let feeds := (cut info.partitions info.counts info.keys batch.rows).filterMap partitionFeed?
  { feeds.foldl enqueue s with
    discovered := s.discovered ++ info.partitions
    phase1Continuation := batch.continuation
    rowsStaged := s.rowsStaged + batch.rows.length
    bytesStaged := s.bytesStaged + sizeOfRows batch.rows }

/-- Takes in a batch of the discovery phase. -/
def stagePhase1 (s : Scan) (c : Control) (batch : Batch) :
    Option QueryError × Scan × Control :=
  match s.checkPhase1 batch with
  | .error e => (some e, s, c)
  | .ok info =>
    match c.charge (sizeOfRows batch.rows) with
    | (some e, c) => (some e, s, c)
    | (none, c) =>
      let s := s.addPartitions info batch
      if info.inPhase1 then (none, s, c)
      else (none, { s with phase := .merging },
        c.emit (.sortPhase1Complete s.discovered.length))

/-- Takes in virtual scans, which join the merge under ids of their own. -/
def addVirtualScans (s : Scan) (c : Control) :
    List VirtualScan → Option QueryError × Scan × Control
  | [] => (none, s, c)
  | scan :: rest =>
    match s.nextVirtualId with
    | none => (some (.protocol "no virtual scan id left above the highest shard id"), s, c)
    | some id =>
      addVirtualScans
        { s.enqueue (.ofVirtualScan id scan) with nextVirtualId := idAfter id }
        (c.emit (.virtualScanSeeded id scan.shard scan.partition)) rest

/-- Takes in a batch for the feed on top of the queue. If the budget refuses the batch, the feed
goes back as it was, perhaps to another place among those that are level with it. -/
def stageMerge (s : Scan) (c : Control) (batch : Batch) :
    Option QueryError × Scan × Control :=
  match s.queue.pop? (Feed.compare s.specs) with
  | none => (some (.defect "merge heap emptied during a fetch"), s, c)
  | some (top, queue) =>
    let rest := { s with queue }
    match c.charge (sizeOfRows batch.rows) with
    | (some e, c) => (some e, rest.enqueue top, c)
    | (none, c) =>
      let counted := s.distribution == .allPartitions
      let s := { rest.enqueue (top.stage batch.rows batch.continuation) with
        rowsStaged := s.rowsStaged + if counted then batch.rows.length else 0
        bytesStaged := s.bytesStaged + if counted then sizeOfRows batch.rows else 0 }
      s.addVirtualScans c batch.virtualScans

def stagePlain (s : Scan) (c : Control) (batch : Batch) :
    Option QueryError × Scan × Control :=
  match c.charge (sizeOfRows batch.rows) with
  | (some e, c) => (some e, s, c)
  | (none, c) => (none, { s with stream := s.stream.stage batch.rows batch.continuation }, c)

/-- Takes in the batch that was asked for. -/
def deliver (s : Scan) (c : Control) (batch : Batch) : Option QueryError × Scan × Control :=
  match s.phase with
  | .plain => s.stagePlain c batch
  | .discovering => s.stagePhase1 c batch
  | .merging => s.stageMerge c batch
  | .done => (none, s, c)

/-- All bytes charged for rows and keys. -/
def held (s : Scan) : Nat :=
  s.stream.memory + (s.queue.toList.map Feed.memory).sum + s.duplicateMemory

/-- Gives back all memory. -/
def close (s : Scan) (c : Control) : Scan × Control :=
  ({ s with
    stream := s.stream.clear
    queue := .nil
    duplicates := s.duplicates.map DuplicateSet.clear
    phase := .done }, c.release s.held)

/-- A bound on the steps that can follow before the scan asks for a batch or stops. -/
def work (s : Scan) : Nat :=
  s.stream.rows.length + (s.queue.toList.map fun f => f.rows.length + 1).sum

end Scan
end ShardQuery
