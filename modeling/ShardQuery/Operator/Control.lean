import ShardQuery.Config
import ShardQuery.Event
import ShardQuery.Fetch.Request
import ShardQuery.Ledger

/-!
What the operators of one query share: registers, bound variables, the memory budget and the one
fetch that each call may issue.
-/

namespace ShardQuery

/-- The value of a register. One that does not exist reads as empty. -/
def readRegister (registers : List Value) (reg : Nat) : Value := registers.getD reg .empty

structure Control where
  registers : List Value
  /-- The values bound to the plan's variables, by position. -/
  externals : List (Option Value) := []
  ledger : Ledger
  config : Config
  /-- Whether this call has issued its fetch. -/
  fetchDone : Bool := false
  /-- Whether an operator had to stop only because the call's fetch is spent. -/
  needsContinuation : Bool := false
  /-- Used since the last call that succeeded. -/
  callConsumed : Capacity := .zero
  totalConsumed : Capacity := .zero
  /-- What making the plan cost, until it is charged with the first batch. -/
  compileCost : Option Capacity := none
  /-- What has happened, the latest first. -/
  events : List Event := []
  deriving Inhabited

/-- The value bound to a variable. -/
def boundVariable (externals : List (Option Value)) (id : Nat) (name : String) :
    Except QueryError Value :=
  match externals[id]? with
  | some (some v) => .ok v
  | _ => .error (.defect s!"external variable {name} referenced before binding")

namespace Control

def ofConfig (config : Config) (registers : Nat) : Control :=
  { registers := List.replicate registers .empty, ledger := .ofLimit config.maxMemory, config }

def reg (c : Control) (r : Nat) : Value := readRegister c.registers r

def setReg (c : Control) (r : Nat) (v : Value) : Control :=
  { c with registers := c.registers.set r v }

def emit (c : Control) (e : Event) : Control := { c with events := e :: c.events }

/-- Gives each call a fetch of its own. -/
def beginCall (c : Control) : Control := { c with fetchDone := false, needsContinuation := false }

def suspend (c : Control) : Control := { c with needsContinuation := true }

def setMemoryLimit (c : Control) (bytes : Nat) : Control :=
  { c with ledger := { c.ledger with limit := bytes } }

/-- Charges the budget. A refusal is logged. -/
def charge (c : Control) (bytes : Nat) : Option QueryError × Control :=
  match c.ledger.charge bytes with
  | .ok ledger => (none, { c with ledger })
  | .error e => (some e, c.emit (.memoryExceeded c.ledger.used bytes c.ledger.limit))

def release (c : Control) (bytes : Nat) : Control :=
  { c with ledger := c.ledger.release bytes }

/-- A call has one fetch. -/
def secondFetch : QueryError := .defect "second fetch requested within one call"

/-- Spends the call's fetch. -/
def beginFetch (c : Control) (request : FetchRequest) : Except QueryError Control :=
  if c.fetchDone then .error secondFetch
  else .ok ({ c with fetchDone := true }.emit (.fetchIssued request.limit))

/-- Books a batch that arrived, and with the first one the cost of making the plan. -/
def recordBatch (c : Control) (batch : Batch) : Control :=
  let consumed := batch.consumed + c.compileCost.getD .zero
  { c with
    callConsumed := c.callConsumed + consumed
    totalConsumed := c.totalConsumed + consumed
    compileCost := none }

/-- Notes that a fetch brought no batch. -/
def recordFailure (c : Control) (e : QueryError) : Control := c.emit (.fetchFailed e)

/-- The capacity used since the last successful call, and the control that starts over. -/
def takeCallConsumed (c : Control) : Capacity × Control :=
  (c.callConsumed, { c with callConsumed := .zero })

end Control

/-- What an operator did in one step. -/
inductive Signal where
  /-- It put a row into its register. -/
  | row
  /-- It got on, but has no row yet. -/
  | more
  /-- It has no row, for good or, if the control needs a continuation, for this call. -/
  | dry
  /-- It cannot get on without a batch. -/
  | request (r : FetchRequest)
  | fail (e : QueryError)
  deriving DecidableEq, Inhabited, Repr

/-- One step of an operator: what it did, and what became of it and of the control. -/
structure Step (σ : Type) where
  signal : Signal
  state : σ
  control : Control

/-- Carries the state of a step over to another type. -/
def Step.map {σ τ : Type} (f : σ → τ) (s : Step σ) : Step τ := ⟨s.signal, f s.state, s.control⟩

end ShardQuery
