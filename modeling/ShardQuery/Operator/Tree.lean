import ShardQuery.Merge.Scan
import ShardQuery.Operator.Grouping
import ShardQuery.Operator.Selection
import ShardQuery.Operator.Sorting

/-!
The operators of a query, each on top of its input, with a scan at the bottom.
-/

namespace ShardQuery

inductive Operator where
  | scan (s : Scan)
  | select (s : Selection) (input : Operator)
  | group (g : Grouping) (input : Operator)
  | sort (s : Sorting) (input : Operator)
  deriving Inhabited, Repr

namespace Operator

/-- Makes the operators of a step and of the steps below it. The columns of a group are counted as the
rules for plans count them, without bound. -/
def ofStep (shards : List Int) : PlanStep → Except QueryError Operator
  | .select reg source info columns offset limit => do
    let columns ← columns.mapM Column.ofStep
    Selection.checkColumns info.grouping columns
    let input ← ofStep shards source
    let offset ← ofBound offset
    let limit ← ofBound limit
    let keys := info.grouping.getD columns.length
    return .select
      { reg, sourceReg := source.reg
        columns := columns.take keys, aggregates := columns.drop keys
        names := info.names, grouping := info.grouping, star := info.star, offset, limit } input
  | .group reg input info => do
    if info.grouping + info.funcs.length != info.names.length then
      throw (.protocol "group column names do not match grouping and aggregate columns")
    return .group { reg, inputReg := input.reg, info } (← ofStep shards input)
  | .sort reg input specs countMemory => do
    if specs.isEmpty then throw (.protocol "sort step without sort fields")
    return .sort { reg, inputReg := input.reg, specs, countMemory } (← ofStep shards input)
  | .receive reg info => do return .scan (← Scan.ofInfo reg info shards)
  | step => .error (.protocol s!"{step.kindName} step used where rows are expected")
where
  ofBound : Option PlanStep → Except QueryError (Option Scalar)
    | none => .ok none
    | some s => do return some (← Scalar.ofStep s)

/-- The register of the rows. -/
def reg : Operator → Nat
  | .scan s => s.reg
  | .select s _ => s.reg
  | .group g _ => g.reg
  | .sort s _ => s.reg

/-- One step. An operator that needs input lets its input take a step and goes by what that did. -/
def step : Operator → Control → Step Operator
  | .scan s, c => (s.step c).map .scan
  | .select s input, c =>
    match s.begin c with
    | .inl done => done.map (.select · input)
    | .inr (b, s, c) =>
      let i := input.step c
      (s.onInput b i.signal i.control).map (.select · i.state)
  | .group g input, c =>
    match g.phase with
    | .done => ⟨.dry, .group g input, c⟩
    | .emitting => (g.emitNext c).map (.group · input)
    | .consuming =>
      let i := input.step c
      (g.onInput i.signal i.control).map (.group · i.state)
  | .sort s input, c =>
    match s.sorted with
    | some rows => (s.emitNext rows c).map (.sort · input)
    | none =>
      let i := input.step c
      (s.onInput i.signal i.control).map (.sort · i.state)

/-- Takes in the batch that was asked for. -/
def deliver : Operator → Control → Batch → Option QueryError × Operator × Control
  | .scan s, c, batch =>
    let (failure, s, c) := s.deliver c batch
    (failure, .scan s, c)
  | .select s input, c, batch =>
    let (failure, input, c) := input.deliver c batch
    (failure, .select s input, c)
  | .group g input, c, batch =>
    let (failure, input, c) := input.deliver c batch
    (failure, .group g input, c)
  | .sort s input, c, batch =>
    let (failure, input, c) := input.deliver c batch
    (failure, .sort s input, c)

/-- Gives back all memory. -/
def close : Operator → Control → Operator × Control
  | .scan s, c =>
    let (s, c) := s.close c
    (.scan s, c)
  | .select s input, c =>
    let (s, c) := s.close c
    let (input, c) := input.close c
    (.select s input, c)
  | .group g input, c =>
    let (g, c) := g.close c
    let (input, c) := input.close c
    (.group g input, c)
  | .sort s input, c =>
    let (s, c) := s.close c
    let (input, c) := input.close c
    (.sort s input, c)

/-- All bytes that the operators hold. -/
def held : Operator → Nat
  | .scan s => s.held
  | .select s input => s.groupMemory + input.held
  | .group g input => g.charged + input.held
  | .sort s input => s.charged + input.held

/-- A bound on the steps that can follow before a batch is needed or the rows end. -/
def work : Operator → Nat
  | .scan s => s.work
  | .select s input => s.work + 2 * input.work
  | .group g input => g.work + 2 * input.work
  | .sort s input => s.work + 2 * input.work

end Operator
end ShardQuery
