import ShardQuery.Operator.Progress
import ShardQuery.Plan.Equality
import ShardQuery.Plan.Validation
import ShardQuery.Text.Uuid

/-!
One query between and during its calls. A call pulls rows until the caller's limit is reached, the
rows end or the call's fetch is spent.
-/

namespace ShardQuery

structure Query where
  id : Uuid
  plan : SharedPlan
  root : Operator
  control : Control
  /-- Rows that were pulled and not yet handed to the caller. -/
  pending : Array Value := #[]
  /-- How many calls were answered with a token. -/
  sequence : Nat := 0
  deriving Inhabited

/-- How far a call has come. -/
inductive Progress where
  | waiting (request : FetchRequest)
  /-- The call is over; `more` says whether the query is not. -/
  | finished (more : Bool)
  | failed (e : QueryError)
  deriving DecidableEq, Inhabited, Repr

namespace Query

/-- A query that has not begun. -/
def ofPlan (id : Uuid) (plan : SharedPlan) (externals : List (Option Value)) (config : Config) :
    Except QueryError Query := do
  plan.plan.validate
  let root ← Operator.ofStep plan.plan.shards plan.plan.root
  let control := { Control.ofConfig config plan.plan.registers with
    externals, compileCost := plan.plan.compileCost }
  return { id, plan, root, control }

/-- Pulls rows as far as the call can go by itself. -/
def advance (rowLimit : Option Nat) (q : Query) : Progress × Query :=
  if rowLimit.any (· ≤ q.pending.size) then (.finished true, q)
  else
    let s := q.root.pull q.control
    let next := { q with root := s.state, control := s.control }
    match _ : s.signal with
    | .row => advance rowLimit { next with pending := q.pending.push (s.control.reg s.state.reg) }
    | .request request => (.waiting request, next)
    | .fail e => (.failed e, next)
    | .dry | .more => (.finished s.control.needsContinuation, next)
termination_by q.root.work
decreasing_by
  rename_i h
  exact (Operator.pull_work q.root q.control).2 h

/-- Spends the call's fetch on a request. -/
def issue (q : Query) (request : FetchRequest) : Except QueryError Query := do
  return { q with control := ← q.control.beginFetch request }

/-- Takes in the batch that was asked for and goes on. -/
def deliver (rowLimit : Option Nat) (q : Query) (batch : Batch) : Progress × Query :=
  let (failure, root, control) := q.root.deliver (q.control.recordBatch batch) batch
  let q := { q with root, control }
  match failure with
  | some e => (.failed e, q)
  | none => q.advance rowLimit

/-- Notes that the fetch failed. -/
def fetchFailed (q : Query) (e : QueryError) : Query :=
  { q with control := q.control.recordFailure e }

/-- Gives back all memory. -/
def close (q : Query) : Query :=
  let (root, control) := q.root.close q.control
  { q with root, control, pending := #[] }

def memory (q : Query) : Nat := q.control.ledger.used

end Query
end ShardQuery
