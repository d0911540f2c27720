import ShardQuery.Proofs.Plan.Construction
import ShardQuery.Session.Bindings

/-!
What the variables of a plan are bound to. A plan that keeps the rules declares its variables one
after the other, so that no two of them share a place, and each has the value bound to its name.
-/

namespace ShardQuery
namespace Plan

variable {plan : Plan} {bindings : Bindings} {externals : List (Option Value)}

/-- Variables are declared at the places that their ids name, so all places are taken. -/
theorem ids_of_checkVariables {n : Nat} {vars : List ExternalVar}
    (h : checkVariables n vars = .ok ()) : vars.map (·.id) = List.range' n vars.length := by
  induction vars generalizing n with
  | nil => rfl
  | cons v rest ih =>
    obtain ⟨_, hid, h⟩ := ok_of_bind h
    have hid : v.id = n := by simpa using require_eq_ok.1 hid
    rw [List.map_cons, hid, ih h, List.length_cons, List.range'_succ]

/-- Each variable has the value that is bound to its name, and other places keep theirs. -/
theorem getElem?_place {vars : List ExternalVar} {values : List (Option Value)}
    (h : place bindings vars values = .ok externals) :
    (∀ id ∉ vars.map (·.id), externals[id]? = values[id]?) ∧
      ((vars.map (·.id)).Nodup → ∀ v ∈ vars, ∃ value,
        Record.get? bindings v.name = some value ∧ externals[v.id]? = some (some value)) := by
  induction vars generalizing values with
  | nil =>
    cases h
    exact ⟨fun _ _ => rfl, fun _ => List.forall_mem_nil _⟩
  | cons v rest ih =>
    unfold place at h
    split at h
    · cases h
    · rename_i value hvalue
      split at h
      · rename_i hlt
        obtain ⟨hkept, hplaced⟩ := ih h
        refine ⟨fun id hid => ?_, fun hn => ?_⟩
        · rw [List.map_cons, List.mem_cons, not_or] at hid
          rw [hkept id hid.2, List.getElem?_set_ne (Ne.symm hid.1)]
        · obtain ⟨hv, hn⟩ := List.nodup_cons.1 hn
          refine List.forall_mem_cons.2 ⟨⟨value, hvalue, ?_⟩, hplaced hn⟩
          rw [hkept v.id hv, List.getElem?_set_self hlt]
      · cases h

/-- The place of a variable has the value that is bound to its name. -/
theorem getElem?_bind {v : ExternalVar} {id : Nat} (hv : plan.validate = .ok ())
    (hb : plan.bind bindings = .ok externals) (hid : plan.externals[id]? = some v) :
    ∃ value, Record.get? bindings v.name = some value ∧ externals[id]? = some (some value) := by
  have hids := ids_of_checkVariables (rules_of_validate hv).2.1
  have hplace : v.id = id := by
    have h := congrArg (·[id]?) hids
    rw [List.getElem?_map, hid, List.getElem?_range' (List.getElem?_eq_some_iff.1 hid).1] at h
    simpa using h
  unfold Plan.bind at hb
  split at hb
  · cases hb
  · subst hplace
    exact (getElem?_place hb).2 (hids ▸ List.nodup_range') v (List.mem_of_getElem? hid)

theorem bound_of_bind (hv : plan.validate = .ok ()) (hb : plan.bind bindings = .ok externals) :
    plan.scope.Bound externals := by
  intro id hid
  obtain ⟨value, -, h⟩ := getElem?_bind hv hb (List.getElem?_eq_getElem hid)
  exact ⟨value, h⟩

end Plan
end ShardQuery
