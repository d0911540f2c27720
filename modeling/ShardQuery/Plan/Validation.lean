import ShardQuery.Plan.Step
import ShardQuery.Text.Quoted
import ShardQuery.Value.Arithmetic

/-!
The rules that a plan must keep before it is run. A plan that breaks one was made by a server that
disagrees about the form of plans, so every failure is a protocol error.
-/

namespace ShardQuery

/-- Fails with a protocol error if a rule is broken. -/
def require (rule : Bool) (reason : String) : Except QueryError Unit :=
  if rule then .ok () else .error (.protocol reason)

namespace PlanStep

/-- Whether evaluating the expression evaluates an aggregate. -/
def containsAggregate : PlanStep → Bool
  | .aggregate .. => true
  | .field _ input _ => input.containsAggregate
  | .arith _ _ args _ => anyContainsAggregate args
  | _ => false
where
  anyContainsAggregate : List PlanStep → Bool
    | [] => false
    | s :: rest => s.containsAggregate || anyContainsAggregate rest

def isAggregate : PlanStep → Bool
  | .aggregate .. => true
  | _ => false

/-- Operators that a step of this kind may use. -/
def legalOp (kind : ArithKind) (c : Char) : Bool :=
  match ArithOp.ofChar? c with
  | some op => op.isAdditive == (kind == .additive)
  | none => false

def checkOps (kind : ArithKind) (args : List PlanStep) (ops : String) :
    Except QueryError Unit := do
  require (!args.isEmpty && ops.length == args.length)
    s!"arithmetic step has {args.length} arguments and operator string {Text.quoteText ops}"
  match ops.toList.find? (fun c => !legalOp kind c) with
  | some c =>
    .error (.protocol s!"illegal operator {Text.quoteChar c} in {kind.title} step")
  | none => .ok ()

/-- Aggregates stand alone, in the columns after the grouping columns. -/
def checkColumns (info : SelectInfo) (columns : List PlanStep) : Except QueryError Unit :=
  match info.grouping with
  | some gb => do
    require (!info.star && gb ≤ columns.length)
      s!"SFW grouping over {gb} of {columns.length} columns"
    require ((columns.drop gb).all isAggregate)
      "SFW non-grouping columns must be aggregate functions"
    require (!((columns.take gb).any containsAggregate ||
        ((columns.drop gb).flatMap children).any containsAggregate))
      "SFW aggregate functions must be top-level non-grouping columns"
  | none =>
    require (!columns.any containsAggregate) "aggregate function in a SFW without grouping"

/-- The rules for a step by itself. The columns of a group are counted without bound. A count in words
of 64 bits runs over only where there are more grouping columns than names, so that no row could be
taken in; see `GroupInfo.words_agree_iff`. -/
def checkSelf (plan : Plan) (step : PlanStep) : Except QueryError Unit := do
  require (step.reg < plan.registers)
    s!"{step.kindName} step writes register {step.reg} but the plan has {plan.registers}"
  match step with
  | .const .. | .varRef .. => .ok ()
  | .externalVarRef _ name id =>
    require ((plan.externals[id]?).any (·.name == name))
      s!"reference to undeclared external variable {name} (id {id})"
  | .field _ _ name => require (!name.isEmpty) "field step with empty field name"
  | .arith _ kind args ops => checkOps kind args ops
  | .aggregate _ func input =>
    require (input.isSome || func == .countStar) s!"aggregate {func.title} without input"
  | .select _ source info columns _ _ => do
    require source.producesRows "SFW from-clause must produce rows"
    require (info.star || columns.length == info.names.length)
      s!"SFW has {columns.length} columns and {info.names.length} column names"
    checkColumns info columns
  | .group _ input info => do
    require (info.grouping + info.funcs.length == info.names.length)
      (s!"group step has {info.grouping} grouping columns, {info.funcs.length} aggregates and " ++
        s!"{info.names.length} column names")
    require input.producesRows "group input must produce rows"
  | .sort _ input specs _ => do
    require (!specs.isEmpty) "sort step without sort fields"
    require input.producesRows "sort input must produce rows"
  | .receive _ info => do
    require (info.distribution != .singlePartition || info.specs.isEmpty)
      "single-partition receive cannot carry a sort specification"
    require (info.distribution != .allShards || info.specs.isEmpty || !plan.shards.isEmpty)
      "sorted all-shards receive requires a shard topology"

/-- A scalar step takes scalars only. -/
def checkInput (step input : PlanStep) : Except QueryError Unit :=
  require (step.producesRows || !input.producesRows)
    s!"{step.kindName} step cannot take a row-producing {input.kindName} input"

/-- Checks a step and, in the order of evaluation, all steps below it. -/
def check (plan : Plan) : PlanStep → Except QueryError Unit
  | .field reg input name => do
    let step := PlanStep.field reg input name
    step.checkSelf plan
    step.checkInput input
    input.check plan
  | .arith reg kind args ops => do
    let step := PlanStep.arith reg kind args ops
    step.checkSelf plan
    checkAll plan step args
  | .aggregate reg func input => do
    let step := PlanStep.aggregate reg func input
    step.checkSelf plan
    checkOption plan step input
  | .select reg source info columns offset limit => do
    let step := PlanStep.select reg source info columns offset limit
    step.checkSelf plan
    step.checkInput source
    source.check plan
    checkAll plan step columns
    checkOption plan step offset
    checkOption plan step limit
  | .group reg input info => do
    let step := PlanStep.group reg input info
    step.checkSelf plan
    step.checkInput input
    input.check plan
  | .sort reg input specs countMemory => do
    let step := PlanStep.sort reg input specs countMemory
    step.checkSelf plan
    step.checkInput input
    input.check plan
  | step => step.checkSelf plan
where
  checkAll (plan : Plan) (parent : PlanStep) : List PlanStep → Except QueryError Unit
    | [] => .ok ()
    | s :: rest => do
      parent.checkInput s
      s.check plan
      checkAll plan parent rest
  checkOption (plan : Plan) (parent : PlanStep) : Option PlanStep → Except QueryError Unit
    | none => .ok ()
    | some s => do
      parent.checkInput s
      s.check plan

end PlanStep

/-- Variables are declared at the places that their ids name. -/
def checkVariables : Nat → List ExternalVar → Except QueryError Unit
  | _, [] => .ok ()
  | place, v :: rest => do
    require (v.id == place)
      s!"external variable {v.name} declared at position {place} with id {v.id}"
    checkVariables (place + 1) rest

/-- Checks a whole plan. -/
def Plan.validate (plan : Plan) : Except QueryError Unit := do
  require (plan.registers != 0) "plan declares zero registers"
  require plan.root.producesRows
    s!"plan root must be a row-producing step, found {plan.root.kindName}"
  checkVariables 0 plan.externals
  plan.root.check plan

end ShardQuery
