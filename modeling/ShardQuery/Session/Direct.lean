import ShardQuery.Fetch.Service
import ShardQuery.Operator.Progress

/-!
Operators run directly against a service, without a client and without waiting.
-/

namespace ShardQuery

/-- Operators with what they need to run. -/
structure Running where
  root : Operator
  control : Control
  service : Service
  deriving Inhabited

namespace Running

def ofPlan (plan : Plan) (externals : List (Option Value)) (config : Config) (service : Service) :
    Except QueryError Running := do
  let root ← Operator.ofStep plan.shards plan.root
  let control := { Control.ofConfig config plan.registers with
    externals, compileCost := plan.compileCost }
  return { root, control, service }

/-- Fetches a batch. -/
def fetch (r : Running) (request : FetchRequest) : Except QueryError Batch × Running :=
  match r.control.beginFetch request with
  | .error e => (.error e, r)
  | .ok control =>
    match (r.service.receive request).answer request with
    | (.ok batch, service) =>
      (.ok batch, { r with service, control := control.recordBatch batch })
    | (.error e, service) =>
      (.error (.fetch e), { r with service, control := control.recordFailure (.fetch e) })

/-- Takes in a batch. -/
def deliver (r : Running) (batch : Batch) : Option QueryError × Running :=
  let (failure, root, control) := r.root.deliver r.control batch
  (failure, { r with root, control })

/-- Pulls as far as the operators go by themselves. -/
def pull (r : Running) : Signal × Running :=
  let s := r.root.pull r.control
  (s.signal, { r with root := s.state, control := s.control })

/-- Whether there was a row, once no batch is needed any more. -/
def conclude : Signal × Running → Except QueryError Bool × Running
  | (.row, r) => (.ok true, r)
  | (.dry, r) | (.more, r) => (.ok false, r)
  | (.fail e, r) => (.error e, r)
  | (.request _, r) => (.error Control.secondFetch, r)

/-- Puts the next row into the register of the root. Says whether there was one. -/
def next (r : Running) : Except QueryError Bool × Running :=
  match r.pull with
  | (.request request, r) =>
    match r.fetch request with
    | (.error e, r) => (.error e, r)
    | (.ok batch, r) =>
      match r.deliver batch with
      | (some e, r) => (.error e, r)
      | (none, r) => conclude r.pull
  | other => conclude other

/-- Gives back all memory. -/
def close (r : Running) : Running :=
  let (root, control) := r.root.close r.control
  { r with root, control }

end Running
end ShardQuery
