import ShardQuery.Plan.Validation
import ShardQuery.Proofs.Operator.Faults
import ShardQuery.Session.Bindings

/-!
How plans are turned down, by the rules for plans or when their operators are made. What is wrong
with a plan is found before anything is asked of the servers.
-/

namespace ShardQuery

theorem require_setback (rule : Bool) (reason : String) : Raises Setback (require rule reason) := by
  unfold require
  split
  · exact .none rfl
  · exact .of_fault (.protocol _) rfl

namespace PlanStep

theorem checkOps_setback (kind : ArithKind) (args : List PlanStep) (ops : String) :
    Raises Setback (checkOps kind args ops) := by
  refine .bind (require_setback _ _) fun _ => ?_
  split
  · exact .of_fault (.protocol _) rfl
  · exact .none rfl

theorem checkColumns_setback (info : SelectInfo) (columns : List PlanStep) :
    Raises Setback (checkColumns info columns) := by
  unfold checkColumns
  split
  · exact .bind (require_setback _ _) fun _ => .bind (require_setback _ _) fun _ =>
      require_setback _ _
  · exact require_setback _ _

theorem checkSelf_setback (plan : Plan) (step : PlanStep) :
    Raises Setback (step.checkSelf plan) := by
  refine .bind (require_setback _ _) fun _ => ?_
  split
  · exact .none rfl
  · exact .none rfl
  · exact require_setback _ _
  · exact require_setback _ _
  · exact checkOps_setback _ _ _
  · exact require_setback _ _
  · exact .bind (require_setback _ _) fun _ => .bind (require_setback _ _) fun _ =>
      checkColumns_setback _ _
  · exact .bind (require_setback _ _) fun _ => require_setback _ _
  · exact .bind (require_setback _ _) fun _ => require_setback _ _
  · exact .bind (require_setback _ _) fun _ => require_setback _ _

mutual

theorem check_setback (plan : Plan) : ∀ step : PlanStep, Raises Setback (step.check plan)
  | .field _ input _ | .group _ input _ | .sort _ input _ _ =>
    .bind (checkSelf_setback plan _) fun _ => .bind (require_setback _ _) fun _ =>
      check_setback plan input
  | .arith _ _ args _ => .bind (checkSelf_setback plan _) fun _ => checkAll_setback plan _ args
  | .aggregate _ _ input =>
    .bind (checkSelf_setback plan _) fun _ => checkOption_setback plan _ input
  | .select _ source _ columns offset limit =>
    .bind (checkSelf_setback plan _) fun _ => .bind (require_setback _ _) fun _ =>
      .bind (check_setback plan source) fun _ => .bind (checkAll_setback plan _ columns) fun _ =>
        .bind (checkOption_setback plan _ offset) fun _ => checkOption_setback plan _ limit
  | .const .. | .varRef .. | .externalVarRef .. | .receive .. => checkSelf_setback plan _

theorem checkAll_setback (plan : Plan) (parent : PlanStep) :
    ∀ steps : List PlanStep, Raises Setback (check.checkAll plan parent steps)
  | [] => .none rfl
  | s :: rest => .bind (require_setback _ _) fun _ => .bind (check_setback plan s) fun _ =>
      checkAll_setback plan parent rest

theorem checkOption_setback (plan : Plan) (parent : PlanStep) :
    ∀ step : Option PlanStep, Raises Setback (check.checkOption plan parent step)
  | none => .none rfl
  | some s => .bind (require_setback _ _) fun _ => check_setback plan s

end

end PlanStep

namespace Plan

theorem checkVariables_setback (place : Nat) (vars : List ExternalVar) :
    Raises Setback (checkVariables place vars) := by
  induction vars generalizing place with
  | nil => exact .none rfl
  | cons v rest ih => exact .bind (require_setback _ _) fun _ => ih _

theorem validate_setback (plan : Plan) : Raises Setback plan.validate :=
  .bind (require_setback _ _) fun _ => .bind (require_setback _ _) fun _ =>
    .bind (checkVariables_setback _ _) fun _ => plan.root.check_setback plan

theorem place_setback (bindings : Bindings) (vars : List ExternalVar)
    (values : List (Option Value)) : Raises Setback (place bindings vars values) := by
  induction vars generalizing values with
  | nil => exact .none rfl
  | cons v rest ih =>
    unfold place
    split
    · exact .of_fault (.invalidArgument _) rfl
    · split
      · exact ih _
      · exact .of_fault (.protocol _) rfl

theorem bind_setback (plan : Plan) (bindings : Bindings) : Raises Setback (plan.bind bindings) := by
  unfold Plan.bind
  split
  · exact .of_fault (.invalidArgument _) rfl
  · exact place_setback _ _ _

end Plan

namespace Scalar

theorem ops_setback (s : String) : Raises Setback (ops s) := by
  refine .mapM (fun c => ?_) _
  split
  · exact .none rfl
  · exact .of_fault (.protocol _) rfl

mutual

theorem ofStep_setback : ∀ step : PlanStep, Raises Setback (ofStep step)
  | .const .. | .varRef .. | .externalVarRef .. => .none rfl
  | .field _ input _ => .bind (ofStep_setback input) fun _ => .none rfl
  | .arith _ _ args text => by
    refine .bind (ops_setback text) fun _ => ?_
    split
    · exact .of_fault (.protocol _) rfl
    · exact .bind (ofSteps_setback args) fun _ => .none rfl
  | .aggregate _ func input => .bind (ofInput_setback func input) fun _ => .none rfl
  | .select .. | .group .. | .sort .. | .receive .. => .of_fault (.protocol _) rfl

theorem ofSteps_setback : ∀ steps : List PlanStep, Raises Setback (ofStep.ofSteps steps)
  | [] => .none rfl
  | s :: rest => .bind (ofStep_setback s) fun _ => .bind (ofSteps_setback rest) fun _ => .none rfl

theorem ofInput_setback (func : AggregateFunc) :
    ∀ input : Option PlanStep, Raises Setback (ofStep.ofInput func input)
  | none => by
    unfold ofStep.ofInput
    split
    · exact .none rfl
    · exact .of_fault (.protocol _) rfl
  | some s => .bind (ofStep_setback s) fun _ => .none rfl

end

end Scalar

theorem Column.ofStep_setback (step : PlanStep) : Raises Setback (ofStep step) := by
  unfold ofStep
  split
  · exact .bind (Scalar.ofInput_setback _ none) fun _ => .none rfl
  · exact .bind (Scalar.ofStep_setback _) fun _ => .none rfl
  · exact .bind (Scalar.ofStep_setback _) fun _ => .none rfl

theorem Selection.checkColumns_setback (grouping : Option Nat) (columns : List Column) :
    Raises Setback (checkColumns grouping columns) := by
  unfold checkColumns
  split
  all_goals
    split
    · exact .of_fault (.protocol _) rfl
    · exact .none rfl

theorem Scan.ofInfo_setback (reg : Nat) (info : ReceiveInfo) (shards : List Int) :
    Raises Setback (ofInfo reg info shards) := by
  unfold ofInfo
  simp only
  split
  · exact .none rfl
  · exact .none rfl
  · exact .none rfl
  · split
    · exact .of_fault (.protocol _) rfl
    · exact .none rfl

namespace Operator

theorem ofBound_setback (bound : Option PlanStep) : Raises Setback (ofStep.ofBound bound) := by
  cases bound with
  | none => exact .none rfl
  | some s => exact .bind (Scalar.ofStep_setback s) fun _ => .none rfl

theorem ofStep_setback (shards : List Int) :
    ∀ step : PlanStep, Raises Setback (ofStep shards step)
  | .select _ source info columns offset limit =>
    .bind (.mapM Column.ofStep_setback columns) fun _ =>
      .bind (Selection.checkColumns_setback _ _) fun _ =>
        .bind (ofStep_setback shards source) fun _ =>
          .bind (ofBound_setback offset) fun _ => .bind (ofBound_setback limit) fun _ => .none rfl
  | .group _ input info => by
    unfold ofStep
    split
    · exact .of_fault (.protocol _) rfl
    · exact .bind (ofStep_setback shards input) fun _ => .none rfl
  | .sort _ input specs _ => by
    unfold ofStep
    split
    · exact .of_fault (.protocol _) rfl
    · exact .bind (ofStep_setback shards input) fun _ => .none rfl
  | .receive reg info => .bind (Scan.ofInfo_setback reg info shards) fun _ => .none rfl
  | .const .. | .varRef .. | .externalVarRef .. | .field .. | .arith .. | .aggregate .. =>
    .of_fault (.protocol _) rfl

end Operator
end ShardQuery
