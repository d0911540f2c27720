import ShardQuery.Plan.Step

/-!
Equality of plans. Constants are compared like values, so a plan with a NaN in it differs even from
itself; whether two callers share one plan is told by its number.
-/

namespace ShardQuery

namespace PlanStep

/-- Equality of steps. -/
def same : PlanStep → PlanStep → Bool
  | .const r v, .const r' v' => r == r' && v.same v'
  | .varRef r n, .varRef r' n' => r == r' && n == n'
  | .externalVarRef r n i, .externalVarRef r' n' i' => r == r' && n == n' && i == i'
  | .field r s n, .field r' s' n' => r == r' && s.same s' && n == n'
  | .arith r k as ops, .arith r' k' as' ops' =>
    r == r' && k == k' && sameAll as as' && ops == ops'
  | .aggregate r f s, .aggregate r' f' s' => r == r' && f == f' && sameOption s s'
  | .select r s i cs o l, .select r' s' i' cs' o' l' =>
    r == r' && s.same s' && i == i' && sameAll cs cs' && sameOption o o' && sameOption l l'
  | .group r s i, .group r' s' i' => r == r' && s.same s' && i == i'
  | .sort r s specs m, .sort r' s' specs' m' => r == r' && s.same s' && specs == specs' && m == m'
  | .receive r i, .receive r' i' => r == r' && i == i'
  | _, _ => false
where
  sameAll : List PlanStep → List PlanStep → Bool
    | [], [] => true
    | s :: rest, s' :: rest' => s.same s' && sameAll rest rest'
    | _, _ => false
  sameOption : Option PlanStep → Option PlanStep → Bool
    | none, none => true
    | some s, some s' => s.same s'
    | _, _ => false

end PlanStep

def Plan.same (p q : Plan) : Bool :=
  p.root.same q.root && p.registers == q.registers && p.externals == q.externals &&
    p.shards == q.shards && p.compileCost == q.compileCost

/-- A plan that several callers may share, known by a number. -/
structure SharedPlan where
  number : Nat
  plan : Plan
  deriving Inhabited

/-- Whether a query of one plan can be continued with another. -/
def SharedPlan.agrees (p q : SharedPlan) : Bool := p.number == q.number || p.plan.same q.plan

end ShardQuery
