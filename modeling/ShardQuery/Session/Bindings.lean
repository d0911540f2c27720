import ShardQuery.Plan.Step

/-!
Values for the variables of a plan.
-/

namespace ShardQuery

/-- Values by name. A name bound again keeps its place. -/
abbrev Bindings := Record

namespace Plan

/-- Puts the values of some variables at the places that the plan gives them. -/
def place (bindings : Bindings) :
    List ExternalVar → List (Option Value) → Except QueryError (List (Option Value))
  | [], values => .ok values
  | v :: rest, values =>
    match Record.get? bindings v.name with
    | none => .error (.invalidArgument s!"external variable {v.name} is not bound")
    | some value =>
      if v.id < values.length then place bindings rest (values.set v.id (some value))
      else .error (.protocol s!"external variable {v.name} has out-of-range id {v.id}")

/-- The values of all variables, each of which must be bound. -/
def bind (plan : Plan) (bindings : Bindings) : Except QueryError (List (Option Value)) :=
  if bindings.length != plan.externals.length then
    .error (.invalidArgument (s!"query declares {plan.externals.length} external variables but " ++
      s!"{bindings.length} were bound"))
  else place bindings plan.externals (List.replicate plan.externals.length none)

end Plan
end ShardQuery
