import ShardQuery.Fetch.Cluster

/-!
The far side of a query: a cluster or a list of prepared answers, with a log of the requests that
reached it.
-/

namespace ShardQuery

/-- Where answers come from. -/
inductive Backend where
  /-- A cluster that first runs through its queue of failures. -/
  | cluster (c : Cluster) (failures : List FetchError)
  /-- Answers given one after the other, whatever is asked. -/
  | script (answers : List (Except FetchError Batch))
  deriving Inhabited

structure Service where
  backend : Backend
  /-- How long an answer takes, if it does not come at once. -/
  latency : Option Nat := none
  /-- The requests received, the latest first. -/
  log : List FetchRequest := []
  deriving Inhabited

namespace Service

/-- Notes a request. It is noted when it arrives, before it is answered. -/
def receive (s : Service) (request : FetchRequest) : Service :=
  { s with log := request :: s.log }

/-- Answers a request that was received. -/
def answer (s : Service) (request : FetchRequest) : Except FetchError Batch × Service :=
  match s.backend with
  | .cluster c (e :: rest) => (.error e, { s with backend := .cluster c rest })
  | .cluster c [] => (c.answer request, s)
  | .script (a :: rest) => (a, { s with backend := .script rest })
  | .script [] => (.error (.transport "script exhausted"), s)

/-- Makes a later request fail: for a cluster after the failures already queued, for a script before
everything else. -/
def failNext (s : Service) (e : FetchError) : Service :=
  match s.backend with
  | .cluster c failures => { s with backend := .cluster c (failures ++ [e]) }
  | .script answers => { s with backend := .script (.error e :: answers) }

end Service
end ShardQuery
