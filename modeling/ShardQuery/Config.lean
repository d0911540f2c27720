import ShardQuery.Error
import ShardQuery.Text.Json.Reader

/-!
Settings of the queries that one client runs.
-/

namespace ShardQuery

structure Config where
  /-- Rows asked for by each request to a shard or to an unsorted scan. -/
  batchLimit : Nat := 100
  /-- The memory budget of one query in bytes. -/
  maxMemory : Nat := 1073741824
  /-- Rows asked for at most by each request to a partition of a sorted scan. -/
  partitionFetchCap : Nat := 2048
  deriving DecidableEq, Inhabited, Repr

namespace Config

def ofJson? (j : Json) : Option Config := do
  let fields ← Json.fieldsOf? ["batch_limit", "max_memory_bytes", "partition_fetch_cap"] j
  let standard : Config := {}
  some {
    batchLimit := ← Json.withDefault fields "batch_limit" standard.batchLimit Json.word32?
    maxMemory := ← Json.withDefault fields "max_memory_bytes" standard.maxMemory Json.word64?
    partitionFetchCap :=
      ← Json.withDefault fields "partition_fetch_cap" standard.partitionFetchCap Json.word32? }

/-- Reads settings; those that are absent take their defaults. -/
def decode (s : String) : Except QueryError Config :=
  match (Json.parse? s).bind ofJson? with
  | none => .error (.invalidArgument "invalid query config")
  | some config =>
    if config.batchLimit = 0 || config.partitionFetchCap = 0 then
      .error (.invalidArgument "batch_limit and partition_fetch_cap must be positive")
    else .ok config

end Config
end ShardQuery
