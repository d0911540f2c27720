import ShardQuery.Numerals

/-!
The ways in which a query can fail, their texts and what a caller may do about them.
-/

namespace ShardQuery

/-- Failure of one round trip to the servers. -/
inductive FetchError where
  /-- Throttling and the like: the same call can be repeated. -/
  | retryable (reason : String)
  /-- The server asked for another protocol version, which the next attempt will use. -/
  | protocolVersion (reason : String)
  /-- Any other failure of the network or the server. -/
  | transport (reason : String)
  deriving DecidableEq, Inhabited, Repr

namespace FetchError

def isRetryable : FetchError → Bool
  | .retryable _ | .protocolVersion _ => true
  | .transport _ => false

def message : FetchError → String
  | .retryable reason => "Retryable fetch failure: " ++ reason
  | .protocolVersion reason => "Protocol version mismatch: " ++ reason
  | .transport reason => "Transport failure: " ++ reason

end FetchError

/-- How bad a failure is: the query may go on, or it is lost. -/
inductive Severity where
  | error
  | fatal
  deriving DecidableEq, Repr

def Severity.text : Severity → String
  | .error => "ERROR"
  | .fatal => "FATAL"

/-- Why a call failed. -/
inductive QueryError where
  /-- A plan or a batch does not have the agreed form. -/
  | protocol (reason : String)
  /-- The rows that must be kept do not fit the memory budget. -/
  | memoryExceeded (used limit : Nat)
  /-- Input did not have the form that the plan promised. -/
  | defect (reason : String)
  /-- A bad binding, bound or option. -/
  | invalidArgument (reason : String)
  /-- An unknown, outdated or malformed token. -/
  | invalidContinuation (reason : String)
  | divisionByZero
  | overflow (operation : String)
  | typeMismatch (reason : String)
  | fetch (e : FetchError)
  | cancelled
  | timeout (milliseconds : Nat)
  deriving DecidableEq, Inhabited, Repr

namespace QueryError

def message : QueryError → String
  | .protocol reason => "Protocol error: " ++ reason
  | .memoryExceeded used limit =>
    s!"Memory limit exceeded: {used} bytes in use, limit is {limit} bytes"
  | .defect reason => "Illegal state: " ++ reason
  | .invalidArgument reason => "Invalid argument: " ++ reason
  | .invalidContinuation reason => "Invalid continuation: " ++ reason
  | .divisionByZero => "Division by zero"
  | .overflow operation => "Arithmetic overflow: " ++ operation
  | .typeMismatch reason => "Type error: " ++ reason
  | .fetch e => e.message
  | .cancelled => "Query call cancelled"
  | .timeout milliseconds => s!"Query call timed out after {milliseconds} ms"

/-- The code by which callers tell failures apart. -/
def code : QueryError → String
  | .protocol _ => "AERO_QUERY_PROTOCOL"
  | .memoryExceeded _ _ => "AERO_QUERY_MEMORY_EXCEEDED"
  | .defect _ => "AERO_QUERY_DEFECT"
  | .invalidArgument _ => "AERO_QUERY_INVALID_ARGUMENT"
  | .invalidContinuation _ => "AERO_QUERY_INVALID_CONTINUATION"
  | .divisionByZero | .overflow _ | .typeMismatch _ => "AERO_QUERY_ARITHMETIC"
  | .fetch _ => "AERO_QUERY_FETCH"
  | .cancelled | .timeout _ => "AERO_QUERY_INTERRUPTED"

def severity : QueryError → Severity
  | .protocol _ | .memoryExceeded _ _ | .defect _ => .fatal
  | _ => .error

def isFatal (e : QueryError) : Bool := e.severity == .fatal

/-- Whether the same call, repeated with the same token, can succeed. -/
def isRetryable : QueryError → Bool
  | .fetch e => e.isRetryable
  | .cancelled | .timeout _ => true
  | _ => false

end QueryError
end ShardQuery
