import ShardQuery.Fetch.Service
import ShardQuery.Session.Client

/-!
Calls in time. An answer takes as long as the service says and nothing else takes any time, so what
ends a wait is told by comparing the latency with the patience of the caller. Callers that wait side
by side wake together whenever a time is up for one of them. One that wakes looks at its call and at
the signal that calls its fetch off. Which of the two it looks at first changes from one waking to
the next, so that neither stands back for good.
-/

namespace ShardQuery

/-- A call with its conditions. -/
structure CallSpec where
  plan : SharedPlan
  bindings : Bindings := []
  options : CallOptions := {}
  /-- After how many milliseconds the call is given up. -/
  timeout : Option Nat := none
  /-- After how many milliseconds its fetch is called off; at zero none is made. -/
  cancelAt : Option Nat := none
  token : Option Token := none
  deriving Inhabited

/-- What ends a wait. -/
inductive Ending where
  | answered
  | timedOut
  | cancelled
  deriving DecidableEq, Inhabited, Repr

/-- What a caller that wakes looks at first. -/
inductive Turn where
  | signal
  | call
  deriving DecidableEq, Inhabited, Repr

def Turn.other : Turn → Turn
  | .signal => .call
  | .call => .signal

/-- A call that waits, with the times after which it is answered, given up and called off. -/
structure Wait where
  call : Call
  latency : Nat
  timeout : Option Nat
  cancelAt : Option Nat
  deriving Inhabited

namespace Wait

/-- When a wait ends. -/
def time (wait : Wait) : Nat :=
  (wait.timeout.toList ++ wait.cancelAt.toList).foldl min wait.latency

/-- What ends a wait. At the same instant an answer comes before a timeout, and a signal before both
if the caller looks at it first, otherwise after both. -/
def ending (wait : Wait) : Turn → Ending
  | .signal =>
    if wait.cancelAt = some wait.time then .cancelled
    else if wait.latency = wait.time then .answered
    else .timedOut
  | .call =>
    if wait.latency = wait.time then .answered
    else if wait.timeout = some wait.time then .timedOut
    else .cancelled

end Wait

/-- A client, the service that it talks to, and a supply of ids for its queries. -/
structure World where
  client : Client
  service : Service
  newId : Nat → Uuid
  issued : Nat := 0

namespace World

/-- Lets the service answer a call. -/
def answer (w : World) (call : Call) : World × Except QueryError Outcome :=
  let (result, service) := w.service.answer call.request
  let reply := match result with
    | .ok batch => Reply.batch batch
    | .error e => .failed e
  let (client, outcome) := w.client.answer call reply
  ({ w with client, service }, outcome)

/-- Ends a wait. -/
def finish (w : World) (wait : Wait) : Ending → World × Except QueryError Outcome
  | .answered => w.answer wait.call
  | .timedOut =>
    let (client, outcome) := w.client.timeOut wait.call wait.time
    ({ w with client }, outcome)
  | .cancelled =>
    let (client, outcome) := w.client.answer wait.call .cancelled
    ({ w with client }, outcome)

/-- A call that is over, or one that waits. -/
abbrev Started := Except QueryError Outcome ⊕ Wait

/-- Sends the request of a call, unless it is called off already. Without latency the answer is
there at once, and so is a timeout of zero. -/
def send (w : World) (spec : CallSpec) (call : Call) : World × Started :=
  let wait : Wait := ⟨call, w.service.latency.getD 0, spec.timeout, spec.cancelAt⟩
  if wait.cancelAt = some 0 then
    let (w, outcome) := w.finish wait .cancelled
    (w, .inl outcome)
  else
    let w := { w with service := w.service.receive call.request }
    if wait.time = 0 then
      let (w, outcome) := w.finish wait (wait.ending .signal)
      (w, .inl outcome)
    else (w, .inr wait)

/-- Runs a call until it is over or has to wait. -/
def start (w : World) (spec : CallSpec) : World × Started :=
  let (client, state) :=
    w.client.execute (w.newId w.issued) spec.plan spec.bindings spec.options spec.token
  let w := { w with client, issued := w.issued + 1 }
  match state with
  | .done outcome => (w, .inl outcome)
  | .waiting call => w.send spec call

/-- Starts calls in order. -/
def startAll (w : World) : List CallSpec → World × List Started
  | [] => (w, [])
  | spec :: rest =>
    let (w, first) := w.start spec
    let (w, others) := w.startAll rest
    (w, first :: others)

/-- Ends waits in order. Each is known by the place of its call. -/
def finishAll (w : World) :
    List (Nat × Wait × Ending) → World × List (Nat × Except QueryError Outcome)
  | [] => (w, [])
  | (place, wait, ending) :: rest =>
    let (w, outcome) := w.finish wait ending
    let (w, others) := w.finishAll rest
    (w, (place, outcome) :: others)

/-- The waits among started calls, with the places of the calls. -/
def waits (calls : List Started) : List (Nat × Wait) :=
  calls.zipIdx.filterMap fun (call, place) =>
    match call with
    | .inl _ => none
    | .inr wait => some (place, wait)

/-- How waits end whose time has come, in order. A signal that is given once its call has been
looked at is seen only when all calls have been. -/
def endings (turn : Turn) (due : List (Nat × Wait)) : List (Nat × Wait × Ending) :=
  let ended := due.map fun (place, wait) => (place, wait, wait.ending turn)
  match turn with
  | .signal => ended
  | .call =>
    let (cancelled, others) := ended.partition fun (_, _, ending) => ending = .cancelled
    others ++ cancelled

/-- Wakes the callers at one instant after the other, whenever a wait is over or a signal is given,
even one that comes too late for its call. A signal that comes in time wakes them once more, after
which the turn is the same again. -/
def wakeAll (w : World) (signals : List Nat) (turn : Turn) :
    List Nat → List (Nat × Wait) → World × List (Nat × Except QueryError Outcome)
  | [], _ => (w, [])
  | now :: later, waits =>
    let (due, waiting) := waits.partition fun (_, wait) => wait.time = now
    if due.isEmpty && !signals.contains now then w.wakeAll signals turn later waiting
    else
      let ended := endings turn due
      let (w, outcomes) := w.finishAll ended
      let next := if ended.any fun (_, _, ending) => ending = .cancelled then turn else turn.other
      let (w, others) := w.wakeAll signals next later waiting
      (w, outcomes ++ others)

/-- Runs calls side by side. They are started in order, and those that wait go on in the order in
which their waits end. -/
def executeAll (w : World) (specs : List CallSpec) : World × List (Except QueryError Outcome) :=
  let (w, calls) := w.startAll specs
  let waits := waits calls
  let signals := (specs.filterMap (·.cancelAt)).filter (0 < ·)
  let instants := (signals ++ waits.map (·.2.time)).mergeSort.eraseDups
  let (w, finished) := w.wakeAll signals .signal instants waits
  let outcomes := calls.zipIdx.filterMap fun (call, place) =>
    match call with
    | .inl outcome => some outcome
    | .inr _ => finished.lookup place
  (w, outcomes)

/-- Runs one call. -/
def execute (w : World) (spec : CallSpec) : World × Except QueryError Outcome :=
  match w.start spec with
  | (w, .inl outcome) => (w, outcome)
  | (w, .inr wait) => w.finish wait (wait.ending .signal)

/-- Calls until there is no token left to go on with, at most `calls` times. A failure ends it too,
unless it is retryable and `retry` asks for the same call again. The first call is awaited together
with its cancellation, which then stands for those that follow. -/
def drain (w : World) (spec : CallSpec) (retry : Bool) :
    Nat → World × List (Except QueryError Outcome)
  | 0 => (w, [])
  | calls + 1 =>
    let (w, outcome) := w.execute spec
    let next : Option CallSpec := match outcome with
      | .ok o => o.token.map fun token => { spec with token := some token }
      | .error e => if retry && e.isRetryable then some spec else none
    match next with
    | none => (w, [outcome])
    | some spec =>
      let spec := { spec with cancelAt := spec.cancelAt.map fun _ => 0 }
      let (w, others) := w.drain spec retry calls
      (w, outcome :: others)

end World
end ShardQuery
