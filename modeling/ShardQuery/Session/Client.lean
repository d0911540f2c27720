import ShardQuery.Metrics
import ShardQuery.Session.Bindings
import ShardQuery.Session.Query
import ShardQuery.Token

/-!
A client runs queries call by call. Between its calls a query is kept under its id, and a token
names it; during a call it is in the hands of that call alone.
-/

namespace ShardQuery

/-- What a caller asks of one call. -/
structure CallOptions where
  /-- Stop after so many rows. -/
  rowLimit : Option Nat := none
  /-- A memory budget other than the client's. -/
  maxMemory : Option Nat := none
  deriving DecidableEq, Inhabited, Repr

/-- The answer to a call. -/
structure Outcome where
  rows : List Value
  /-- How to go on, if there are more rows. -/
  token : Option Token
  /-- Used by this call and by the failed ones before it. -/
  consumed : Capacity
  /-- Used by the query so far. -/
  total : Capacity
  /-- Bytes that the query still holds. -/
  memory : Nat
  deriving Inhabited, Repr

/-- What a call holds of its query, until the query is taken out for good. -/
structure Lease where
  query : Option Query
  deriving Inhabited

namespace Lease

/-- The failure of a call that does not find its query. -/
def vanished : QueryError := .defect "query state vanished"

/-- The lease of a query. -/
def of (q : Query) : Lease := ⟨some q⟩

instance : Coe Query Lease := ⟨of⟩

/-- The query, which is there unless it was taken out. -/
def runtime (lease : Lease) : Except QueryError Query :=
  match lease.query with
  | some q => .ok q
  | none => .error vanished

@[simp] theorem runtime_of (q : Query) : (of q).runtime = .ok q := rfl

/-- Takes the query out for good. -/
def release (lease : Lease) : Option Query × Lease := (lease.query, ⟨none⟩)

end Lease

/-- A call that waits for the servers. -/
structure Call where
  /-- The query. It is lent out by the lease of the call while the call waits, so nobody can take it
  out meanwhile. -/
  query : Query
  options : CallOptions
  /-- Whether it is the first call of the query. -/
  fresh : Bool
  request : FetchRequest
  deriving Inhabited

/-- What comes of a request. -/
inductive Reply where
  | batch (b : Batch)
  | failed (e : FetchError)
  | cancelled
  deriving Inhabited

inductive CallState where
  | waiting (call : Call)
  | done (result : Except QueryError Outcome)
  deriving Inhabited

structure Client where
  config : Config
  /-- The suspended queries, the latest first. -/
  suspended : List Query := []
  metrics : Metrics := {}
  /-- What has happened, the latest first. -/
  events : List Event := []
  deriving Inhabited

namespace Client

/-- Logs and counts an event. -/
def log (c : Client) (e : Event) : Client :=
  { c with metrics := c.metrics.observe e, events := e :: c.events }

/-- Logs what a query noted, and the query with nothing noted. -/
def collect (c : Client) (q : Query) : Client × Query :=
  (q.control.events.reverse.foldl log c, { q with control := { q.control with events := [] } })

/-- Takes a query out of the suspended ones. -/
def remove (c : Client) (id : Uuid) : Client :=
  { c with suspended := c.suspended.filter (·.id != id) }

def find? (c : Client) (id : Uuid) : Option Query := c.suspended.find? (·.id == id)

/-- Keeps a query until its next call. -/
def keep (c : Client) (q : Query) : Client :=
  { c with suspended := q :: (c.remove q.id).suspended }

/-- Lets go of a lease. A query that was not taken out is suspended. -/
def letGo (c : Client) (lease : Lease) : Client :=
  match lease.query with
  | some q => c.keep q
  | none => c

@[simp] theorem letGo_of (c : Client) (q : Query) : c.letGo (.of q) = c.keep q := rfl

/-- Logs what the query of a lease noted. -/
def hear (c : Client) (lease : Lease) : Client × Lease :=
  match lease.query with
  | some q =>
    let (c, q) := c.collect q
    (c, .of q)
  | none => (c, lease)

@[simp] theorem hear_of (c : Client) (q : Query) :
    c.hear (.of q) = ((c.collect q).1, .of (c.collect q).2) := rfl

/-- The suspended query that a token names. -/
def resume (c : Client) (plan : SharedPlan) (token : Token) : Except QueryError Query :=
  match c.find? token.query with
  | none => .error (.invalidContinuation s!"no suspended query {token.query.text}")
  | some found =>
    match (Lease.of found).runtime with
    | .error e => .error e
    | .ok q =>
      if q.sequence != token.sequence then
        .error (.invalidContinuation (s!"stale token for query {token.query.text}: call " ++
          s!"{token.sequence} presented, call {q.sequence} expected"))
      else if !q.plan.agrees plan then
        .error (.invalidContinuation "token belongs to a different plan")
      else .ok q

/-- Ends a call that failed. The query is lost if this was its first call or if a repetition cannot
help. -/
def settleError (c : Client) (fresh : Bool) (lease : Lease) (e : QueryError) :
    Client × Except QueryError Outcome :=
  let (c, lease) := c.hear lease
  let c := c.log (.queryFailed e)
  if fresh || !e.isRetryable then
    let (_, lease) := lease.release
    (c.letGo lease, .error e)
  else (c.letGo lease, .error e)

/-- Ends a call that succeeded. -/
def settle (c : Client) (more : Bool) (lease : Lease) : Client × Except QueryError Outcome :=
  let (c, lease) := c.hear lease
  match lease.runtime with
  | .error e => (c.letGo lease, .error e)
  | .ok q =>
    let rows := q.pending.toList
    let c := { c with metrics := c.metrics.countRows rows.length }
    let (consumed, control) := q.control.takeCallConsumed
    let total := control.totalConsumed
    let q := { q with pending := #[], control }
    if more then
      let q := { q with sequence := q.sequence + 1 }
      let c := c.log (.querySuspended rows.length q.sequence)
      (c.letGo (.of q),
        .ok { rows, token := some ⟨q.id, q.sequence⟩, consumed, total, memory := q.memory })
    else
      let (released, lease) := (Lease.of q).release
      match released with
      | none => (c.letGo lease, .error Lease.vanished)
      | some q =>
        let q := q.close
        ((c.log (.queryComplete total.readUnits)).letGo lease,
          .ok { rows, token := none, consumed, total, memory := q.memory })

/-- Goes by how far a call has come before its fetch. -/
def follow (c : Client) (options : CallOptions) (fresh : Bool) :
    Progress × Query → Client × CallState
  | (.finished more, q) =>
    let (c, result) := c.settle more q
    (c, .done result)
  | (.failed e, q) =>
    let (c, result) := c.settleError fresh q e
    (c, .done result)
  | (.waiting request, q) =>
    match q.issue request with
    | .error e =>
      let (c, result) := c.settleError fresh q e
      (c, .done result)
    | .ok q =>
      let (c, query) := c.collect q
      (c, .waiting { query, options, fresh, request })

/-- Goes by how far a call has come after its fetch. -/
def conclude (c : Client) (fresh : Bool) : Progress × Query → Client × Except QueryError Outcome
  | (.finished more, q) => c.settle more q
  | (.failed e, q) => c.settleError fresh q e
  | (.waiting _, q) => c.settleError fresh q Control.secondFetch

/-- Runs a call of a query as far as it goes by itself. -/
def run (c : Client) (options : CallOptions) (fresh : Bool) (lease : Lease) : Client × CallState :=
  match lease.runtime with
  | .error e => (c.letGo lease, .done (.error e))
  | .ok q =>
    let control := q.control.setMemoryLimit (options.maxMemory.getD c.config.maxMemory)
    c.follow options fresh ({ q with control := control.beginCall }.advance options.rowLimit)

/-- Begins a call: the next one of the query that a token names, or else the first one of a new
query. -/
def execute (c : Client) (newId : Uuid) (plan : SharedPlan) (bindings : Bindings)
    (options : CallOptions) (previous : Option Token) : Client × CallState :=
  let c := { c with metrics := c.metrics.countCall }
  if options.rowLimit = some 0 then
    (c, .done (.error (.invalidArgument "row limit must be positive")))
  else
    match previous with
    | some token =>
      match c.resume plan token with
      | .error e => (c, .done (.error e))
      | .ok q => (c.remove q.id).run options false q
    | none =>
      match (do Query.ofPlan newId plan (← plan.plan.bind bindings) c.config) with
      | .error e => (c, .done (.error e))
      | .ok q => (c.log (.queryStart plan.plan.root.mergesSorted)).run options true q

/-- Ends a call when its request has come to something. -/
def answer (c : Client) (call : Call) : Reply → Client × Except QueryError Outcome
  | .batch b => c.conclude call.fresh (call.query.deliver call.options.rowLimit b)
  | .failed e => c.settleError call.fresh (call.query.fetchFailed (.fetch e)) (.fetch e)
  | .cancelled =>
    let control := call.query.control.emit .fetchCancelled
    c.settleError call.fresh ({ call.query with control }.fetchFailed .cancelled) .cancelled

/-- Ends a call that waited too long. Its request is forgotten. -/
def timeOut (c : Client) (call : Call) (milliseconds : Nat) : Client × Except QueryError Outcome :=
  c.settleError call.fresh call.query (.timeout milliseconds)

/-- Lets go of a call whose caller no longer waits for it. The query is suspended as it is, even in
its first call. -/
def forsake (c : Client) (call : Call) : Client := c.letGo call.query

/-- Gives up a suspended query. Says whether there was one. -/
def abandon (c : Client) (token : Token) : Client × Bool :=
  match c.find? token.query with
  | none => (c, false)
  | some q =>
    let (c, _) := (c.remove token.query).collect q.close
    (c.log .queryAbandoned, true)

end Client
end ShardQuery
