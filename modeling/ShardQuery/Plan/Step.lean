import ShardQuery.Fetch.Request
import ShardQuery.Value.Order

/-!
Query plans: a tree of steps, each of which leaves its result in a register.
-/

namespace ShardQuery

/-- How many sources a scan is spread over. -/
inductive Distribution where
  | singlePartition
  | allPartitions
  | allShards
  deriving DecidableEq, Inhabited, Repr

def Distribution.text : Distribution → String
  | .singlePartition => "SINGLE_PARTITION"
  | .allPartitions => "ALL_PARTITIONS"
  | .allShards => "ALL_SHARDS"

inductive AggregateFunc where
  | countStar
  | count
  | countNumbers
  | sum
  | min
  | max
  | collect
  | collectDistinct
  deriving DecidableEq, Inhabited, Repr

namespace AggregateFunc

def all : List AggregateFunc :=
  [.countStar, .count, .countNumbers, .sum, .min, .max, .collect, .collectDistinct]

/-- The functions that count. -/
def isCount : AggregateFunc → Bool
  | .countStar | .count | .countNumbers => true
  | _ => false

/-- The name in a plan's text. -/
def text : AggregateFunc → String
  | .countStar => "count_star"
  | .count => "count"
  | .countNumbers => "count_numbers"
  | .sum => "sum"
  | .min => "min"
  | .max => "max"
  | .collect => "collect"
  | .collectDistinct => "collect_distinct"

/-- The name in an error message. -/
def title : AggregateFunc → String
  | .countStar => "CountStar"
  | .count => "Count"
  | .countNumbers => "CountNumbers"
  | .sum => "Sum"
  | .min => "Min"
  | .max => "Max"
  | .collect => "Collect"
  | .collectDistinct => "CollectDistinct"

end AggregateFunc

/-- Which operators an arithmetic step may use. -/
inductive ArithKind where
  | additive
  | multiplicative
  deriving DecidableEq, Inhabited, Repr

/-- The name in a document. -/
def ArithKind.text : ArithKind → String
  | .additive => "additive"
  | .multiplicative => "multiplicative"

/-- The name in an error message. -/
def ArithKind.title : ArithKind → String
  | .additive => "Additive"
  | .multiplicative => "Multiplicative"

/-- What a select step does beside evaluating its columns. -/
structure SelectInfo where
  rowVariable : String
  names : List String
  /-- How many leading columns rows are grouped by, if they are. -/
  grouping : Option Nat
  /-- Whether rows are passed on as they are. -/
  star : Bool
  deriving DecidableEq, Inhabited, Repr

structure GroupInfo where
  /-- How many of the leading columns rows are grouped by. -/
  grouping : Nat
  /-- The grouping columns first, then a column for each function. -/
  names : List String
  funcs : List AggregateFunc
  distinct : Bool
  /-- Whether a group's memory is released with its row. -/
  removeProduced : Bool
  countMemory : Bool
  deriving DecidableEq, Inhabited, Repr

structure ReceiveInfo where
  distribution : Distribution
  specs : List SortSpec
  /-- The fields by which a row that two shards return is recognised. -/
  primaryKey : List String
  deriving DecidableEq, Inhabited, Repr

/-- A step of a plan with the register of its result. -/
inductive PlanStep where
  | const (reg : Nat) (value : Value)
  | varRef (reg : Nat) (name : String)
  | externalVarRef (reg : Nat) (name : String) (id : Nat)
  | field (reg : Nat) (input : PlanStep) (name : String)
  | arith (reg : Nat) (kind : ArithKind) (args : List PlanStep) (ops : String)
  | aggregate (reg : Nat) (func : AggregateFunc) (input : Option PlanStep)
  | select (reg : Nat) (source : PlanStep) (info : SelectInfo) (columns : List PlanStep)
    (offset limit : Option PlanStep)
  | group (reg : Nat) (input : PlanStep) (info : GroupInfo)
  | sort (reg : Nat) (input : PlanStep) (specs : List SortSpec) (countMemory : Bool)
  | receive (reg : Nat) (info : ReceiveInfo)
  deriving Inhabited, Repr

namespace PlanStep

/-- The register of the result. -/
def reg : PlanStep → Nat
  | .const r _ | .varRef r _ | .externalVarRef r _ _ | .field r _ _ | .arith r _ _ _
  | .aggregate r _ _ | .select r _ _ _ _ _ | .group r _ _ | .sort r _ _ _ | .receive r _ => r

/-- Whether the step produces rows, and so may have to wait for the servers. -/
def producesRows : PlanStep → Bool
  | .select .. | .group .. | .sort .. | .receive .. => true
  | _ => false

def kindName : PlanStep → String
  | .const .. => "CONST"
  | .varRef .. => "VAR_REF"
  | .externalVarRef .. => "EXTERNAL_VAR_REF"
  | .field .. => "FIELD_STEP"
  | .arith .. => "ARITH_OP"
  | .aggregate .. => "AGGREGATE"
  | .select .. => "SFW"
  | .group .. => "GROUP"
  | .sort .. => "SORT"
  | .receive .. => "RECEIVE"

/-- The inputs of a step in the order of evaluation. -/
def children : PlanStep → List PlanStep
  | .const .. | .varRef .. | .externalVarRef .. | .receive .. => []
  | .field _ input _ | .group _ input _ | .sort _ input _ _ => [input]
  | .arith _ _ args _ => args
  | .aggregate _ _ input => input.toList
  | .select _ source _ columns offset limit =>
    source :: columns ++ offset.toList ++ limit.toList

/-- Whether rows are merged in order anywhere in the plan. -/
def mergesSorted : PlanStep → Bool
  | .receive _ info => !info.specs.isEmpty
  | .field _ input _ | .group _ input _ | .sort _ input _ _ => input.mergesSorted
  | .arith _ _ args _ => anyMergesSorted args
  | .aggregate _ _ input => optionMergesSorted input
  | .select _ source _ columns offset limit =>
    source.mergesSorted || anyMergesSorted columns || optionMergesSorted offset ||
      optionMergesSorted limit
  | _ => false
where
  anyMergesSorted : List PlanStep → Bool
    | [] => false
    | s :: rest => s.mergesSorted || anyMergesSorted rest
  optionMergesSorted : Option PlanStep → Bool
    | none => false
    | some s => s.mergesSorted

end PlanStep

/-- A variable that the caller binds, with its place among the bound values. -/
structure ExternalVar where
  name : String
  id : Nat
  deriving DecidableEq, Inhabited, Repr

/-- A plan with what is needed to run it. -/
structure Plan where
  root : PlanStep
  registers : Nat
  externals : List ExternalVar := []
  /-- The shards known when the plan was made. -/
  shards : List Int := []
  /-- What making the plan cost, if it is charged to this query. -/
  compileCost : Option Capacity := none
  deriving Inhabited, Repr

end ShardQuery
