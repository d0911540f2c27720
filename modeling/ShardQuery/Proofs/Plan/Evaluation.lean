import ShardQuery.Proofs.Operator.Marks
import ShardQuery.Proofs.Plan.Aggregates
import ShardQuery.Proofs.Session.Bindings

/-!
What an expression is worth, told of the step it is made of. Its parts hand their values on through
registers that they share, and none of that shows.
-/

namespace ShardQuery

namespace PlanStep

def isVariable : PlanStep → Bool
  | .varRef .. => true
  | _ => false

mutual

/-- An expression with all that it is made of. -/
def parts : PlanStep → List PlanStep
  | .field r input name => .field r input name :: parts input
  | .arith r kind args ops => .arith r kind args ops :: partsOf args
  | step => [step]

def partsOf : List PlanStep → List PlanStep
  | [] => []
  | s :: rest => parts s ++ partsOf rest

end

/-- The registers in which an expression finds the values of its variables. -/
def sources (step : PlanStep) : List Nat := (step.parts.filter isVariable).map reg

/-- The registers into which an expression puts what it makes. -/
def targets (step : PlanStep) : List Nat := (step.parts.filter (!·.isVariable)).map reg

mutual

/-- What an expression is worth, if it has a value, where its variables are worth what is given. -/
def value (externals : List (Option Value)) (vars : Nat → Value) :
    PlanStep → Except QueryError (Option Value)
  | .const _ v => .ok (some v)
  | .varRef r _ => .ok (some (vars r))
  | .externalVarRef _ name id => (boundVariable externals id name).map some
  | .field _ input name =>
    (value externals vars input).bind fun
      | none => .ok none
      | some v => Scalar.fieldOf v name
  | .arith _ kind args text =>
    (Scalar.ops text).bind fun ops => joined externals vars args ops kind.identity
  | _ => .ok none

/-- The arguments are joined from left to right. Nothing behind one that fails, has no value or is
null counts. -/
def joined (externals : List (Option Value)) (vars : Nat → Value) :
    List PlanStep → List ArithOp → Value → Except QueryError (Option Value)
  | s :: rest, op :: ops, sum =>
    (value externals vars s).bind fun
      | none | some .empty => .ok none
      | some .null | some .jsonNull => .ok (some .null)
      | some v => (op.apply sum v).bind fun sum => joined externals vars rest ops sum
  | _, _, sum => .ok (some sum)

end

end PlanStep

/-! ## Expressions -/

namespace Scalar
variable {externals : List (Option Value)} {P : Nat → Prop} {regs regs₀ : List Value}

mutual

/-- What is made of a step names the registers that the step names. -/
theorem registers_of_ofStep : ∀ (step : PlanStep) {s : Scalar}, ofStep step = .ok s →
    step.containsAggregate = false →
    s.reg = step.reg ∧ s.reads ⊆ step.sources ∧ s.writes ⊆ step.targets
  | .const .., _, h, _ | .varRef .., _, h, _ | .externalVarRef .., _, h, _ => by
    cases h
    exact ⟨rfl, List.Subset.refl _, List.Subset.refl _⟩
  | .field r input name, _, h, ha => by
    obtain ⟨s, hs, h⟩ := ok_of_bind h
    cases h
    obtain ⟨-, hr, hw⟩ := registers_of_ofStep input hs ha
    exact ⟨rfl, hr, List.cons_subset_cons r hw⟩
  | .arith r kind args text, _, h, ha => by
    obtain ⟨symbols, -, h⟩ := ok_of_bind h
    simp only at h
    split at h
    · cases h
    · obtain ⟨ss, hss, h⟩ := ok_of_bind h
      cases h
      obtain ⟨hr, hw⟩ := registers_of_ofSteps args symbols hss ha
      exact ⟨rfl, hr, List.cons_subset_cons r hw⟩
  | .aggregate .., _, _, ha => by cases ha
  | .select .., _, h, _ | .group .., _, h, _ | .sort .., _, h, _ | .receive .., _, h, _ => by
    cases h

theorem registers_of_ofSteps : ∀ (steps : List PlanStep) (symbols : List ArithOp)
    {ss : List Scalar}, ofStep.ofSteps steps = .ok ss →
    PlanStep.containsAggregate.anyContainsAggregate steps = false →
    readsArgs (symbols.zip ss) ⊆
        ((PlanStep.partsOf steps).filter PlanStep.isVariable).map PlanStep.reg ∧
      writesArgs (symbols.zip ss) ⊆
        ((PlanStep.partsOf steps).filter (!·.isVariable)).map PlanStep.reg
  | _, [], _, _, _ => ⟨List.nil_subset _, List.nil_subset _⟩
  | [], _ :: _, _, h, _ => by
    cases h
    exact ⟨List.nil_subset _, List.nil_subset _⟩
  | step :: rest, op :: symbols, _, h, ha => by
    obtain ⟨s, hs, h⟩ := ok_of_bind h
    obtain ⟨ss, hss, h⟩ := ok_of_bind h
    cases h
    obtain ⟨ha, has⟩ := Bool.or_eq_false_iff.1 ha
    obtain ⟨-, hr, hw⟩ := registers_of_ofStep step hs ha
    obtain ⟨hrs, hws⟩ := registers_of_ofSteps rest symbols hss has
    rw [PlanStep.partsOf, List.filter_append, List.filter_append, List.map_append, List.map_append]
    exact ⟨List.append_subset.2 ⟨List.subset_append_of_subset_left _ hr,
        List.subset_append_of_subset_right _ hrs⟩,
      List.append_subset.2 ⟨List.subset_append_of_subset_left _ hw,
        List.subset_append_of_subset_right _ hws⟩⟩

end

/-- An evaluation comes to the value, which is in the register. -/
structure Yields (reg : Nat) (value : Except QueryError (Option Value))
    (x : Except QueryError Bool × List Value) : Prop where
  result : x.1 = value.map Option.isSome
  left : ∀ v, value = .ok (some v) → readRegister x.2 reg = v

theorem yields_set {r : Nat} (hr : r < regs.length) (v : Value) :
    Yields r (.ok (some v)) (.ok true, regs.set r v) := by
  refine ⟨rfl, fun w hw => ?_⟩
  cases hw
  rw [readRegister_set, if_pos ⟨rfl, hr⟩]

mutual

theorem eval_yields : ∀ (step : PlanStep) {s : Scalar} {regs : List Value},
    ofStep step = .ok s → step.containsAggregate = false → Agree P regs regs₀ →
    (∀ r ∈ s.reads, P r) → (∀ r ∈ s.writes, ¬P r ∧ r < regs₀.length) →
    Yields s.reg (step.value externals (readRegister regs₀)) (s.eval externals regs)
  | .const r v, _, regs, h, _, hagree, _, hw => by
    cases h
    exact yields_set (hagree.length ▸ (hw r (List.mem_singleton_self r)).2) v
  | .varRef r name, _, regs, h, _, hagree, hr, _ => by
    cases h
    refine ⟨rfl, fun v hv => ?_⟩
    cases hv
    exact hagree.read r (hr r (List.mem_singleton_self r))
  | .externalVarRef r name id, _, regs, h, _, hagree, _, hw => by
    cases h
    have hr := hagree.length ▸ (hw r (List.mem_singleton_self r)).2
    unfold eval PlanStep.value
    cases boundVariable externals id name with
    | ok v => exact yields_set hr v
    | error e => exact ⟨rfl, nofun⟩
  | .field r input name, _, regs, h, ha, hagree, hr, hw => by
    obtain ⟨s, hs, h⟩ := ok_of_bind h
    cases h
    obtain ⟨hwr, hw⟩ := List.forall_mem_cons.1 hw
    obtain ⟨hres, hleft⟩ := eval_yields input hs ha hagree hr hw
    have hlen := (@eval_frame externals s regs).length.trans hagree.length
    unfold eval PlanStep.value
    generalize s.eval externals regs = x at hres hleft hlen
    generalize input.value externals (readRegister regs₀) = value at hres hleft
    obtain ⟨result, regs'⟩ := x
    cases hres
    rcases value with e | _ | v
    · exact ⟨rfl, nofun⟩
    · exact ⟨rfl, nofun⟩
    · have hv : readRegister regs' s.reg = v := hleft v rfl
      simp only [Option.isSome, Except.bind, hv]
      rcases fieldOf v name with e | _ | w
      · exact ⟨rfl, nofun⟩
      · exact ⟨rfl, nofun⟩
      · exact yields_set (hlen ▸ hwr.2) w
  | .arith r kind args text, _, regs, h, ha, hagree, hr, hw => by
    obtain ⟨symbols, hsymbols, h⟩ := ok_of_bind h
    simp only at h
    split at h
    · cases h
    · obtain ⟨ss, hss, h⟩ := ok_of_bind h
      cases h
      obtain ⟨hwr, hw⟩ := List.forall_mem_cons.1 hw
      have hres := evalArgs_eq_joined args symbols kind.identity hss ha hagree hr hw
      have hlen := (@evalArgs_frame externals (symbols.zip ss) kind.identity
        regs).length.trans hagree.length
      unfold eval PlanStep.value
      rw [hsymbols]
      generalize evalArgs externals (symbols.zip ss) kind.identity regs = x at hres hlen
      obtain ⟨result, regs'⟩ := x
      simp only [Except.bind, ← hres]
      rcases result with e | _ | v
      · exact ⟨rfl, nofun⟩
      · exact ⟨rfl, nofun⟩
      · exact yields_set (hlen ▸ hwr.2) v
  | .aggregate .., _, _, _, ha, _, _, _ => by cases ha
  | .select .., _, _, h, _, _, _, _ | .group .., _, _, h, _, _, _, _
  | .sort .., _, _, h, _, _, _, _ | .receive .., _, _, h, _, _, _, _ => by cases h

theorem evalArgs_eq_joined : ∀ (steps : List PlanStep) (symbols : List ArithOp) (sum : Value)
    {ss : List Scalar} {regs : List Value}, ofStep.ofSteps steps = .ok ss →
    PlanStep.containsAggregate.anyContainsAggregate steps = false → Agree P regs regs₀ →
    (∀ r ∈ readsArgs (symbols.zip ss), P r) →
    (∀ r ∈ writesArgs (symbols.zip ss), ¬P r ∧ r < regs₀.length) →
    (evalArgs externals (symbols.zip ss) sum regs).1 =
      PlanStep.joined externals (readRegister regs₀) steps symbols sum
  | steps, [], sum, _, _, _, _, _, _, _ => by
    cases steps <;> rfl
  | [], _ :: _, _, _, _, h, _, _, _, _ => by
    cases h
    rfl
  | step :: rest, op :: symbols, sum, _, regs, h, ha, hagree, hr, hw => by
    obtain ⟨s, hs, h⟩ := ok_of_bind h
    obtain ⟨ss, hss, h⟩ := ok_of_bind h
    cases h
    obtain ⟨ha, has⟩ := Bool.or_eq_false_iff.1 ha
    obtain ⟨hr, hrs⟩ := List.forall_mem_append.1 hr
    obtain ⟨hw, hws⟩ := List.forall_mem_append.1 hw
    obtain ⟨hres, hleft⟩ := eval_yields step hs ha hagree hr hw
    -- no variable is in a register that the argument has put a value into
    have hagree' : Agree P (s.eval externals regs).2 regs₀ :=
      ((s.eval_frame regs).mono fun r hp hmem => (hw r hmem).1 hp).trans hagree
    rw [List.zip_cons_cons]
    unfold evalArgs PlanStep.joined
    generalize s.eval externals regs = x at hres hleft hagree'
    generalize step.value externals (readRegister regs₀) = value at hres hleft
    obtain ⟨result, regs'⟩ := x
    cases hres
    rcases value with e | _ | v
    · rfl
    · rfl
    · have hv : readRegister regs' s.reg = v := hleft v rfl
      have ih := fun sum => evalArgs_eq_joined rest symbols sum hss has hagree' hrs hws
      simp only [Option.isSome, Except.bind, hv]
      cases v with
      | empty | null | jsonNull => rfl
      | _ =>
        simp only [join]
        generalize op.apply sum _ = y
        rcases y with e | sum
        · rfl
        · exact ih sum

end

end Scalar

/-! ## Evaluators -/

/-- What evaluating an expression comes to: its value, where it has one, is in its register, and
nothing but its targets has changed. -/
structure PlanStep.Evaluates (step : PlanStep) (c : Control)
    (x : Except QueryError Bool × Evaluator × Control) : Prop where
  result : x.1 = (step.value c.externals c.reg).map Option.isSome
  left : ∀ v, step.value c.externals c.reg = .ok (some v) → x.2.2.reg step.reg = v
  kept : ∀ r, r ∉ step.targets → x.2.2.reg r = c.reg r
  size : x.2.2.size = c.size
  rest : x.2.2 = { c with registers := x.2.2.registers }

namespace Evaluator
variable {step : PlanStep} {e : Evaluator} {c : Control}

theorem next_evaluates (he : Column.ofStep step = .ok e.column)
    (ha : step.containsAggregate = false) (hvars : ∀ r ∈ step.sources, r ∉ step.targets)
    (hregs : ∀ r ∈ step.targets, r < c.size) : step.Evaluates c (e.reset.next c) := by
  obtain ⟨s, hcol, hs⟩ := Column.ofStep_scalar he ha
  obtain ⟨hres, hctl⟩ := e.next_reset c
  rw [hcol] at hres hctl
  obtain ⟨hreg, hreads, hwrites⟩ := Scalar.registers_of_ofStep step hs ha
  have hapart : ∀ r ∈ s.writes, r ∉ step.sources ∧ r < c.registers.length := fun r hr =>
    ⟨fun hv => hvars r hv (hwrites hr), hregs r (hwrites hr)⟩
  obtain ⟨hresult, hleft⟩ := @Scalar.eval_yields c.externals (· ∈ step.sources) c.registers step s
    c.registers hs ha (.refl _ _) hreads hapart
  have hframe := @Scalar.eval_frame c.externals s c.registers
  refine ⟨hres.trans hresult, fun v hv => ?_, fun r hr => ?_, ?_, ?_⟩ <;> rw [hctl]
  · exact hreg ▸ hleft v hv
  · exact hframe.read r fun hmem => hr (hwrites hmem)
  · exact hframe.length
  · rfl

/-- What was evaluated before makes no difference, and neither do registers other than those of the
variables. -/
theorem next_congr {e' : Evaluator} {d : Control} (he : Column.ofStep step = .ok e.column)
    (ha : step.containsAggregate = false) (he' : e'.column = e.column)
    (hext : d.externals = c.externals) (hsize : d.size = c.size)
    (hvars : ∀ r ∈ step.sources, d.reg r = c.reg r) :
    (e'.reset.next d).1 = (e.reset.next c).1 ∧ ((e.reset.next c).1 = .ok true →
      (e'.reset.next d).2.2.reg step.reg = (e.reset.next c).2.2.reg step.reg) := by
  obtain ⟨s, hcol, hs⟩ := Column.ofStep_scalar he ha
  obtain ⟨hres, hctl⟩ := e.next_reset c
  obtain ⟨hres', hctl'⟩ := e'.next_reset d
  obtain ⟨hreg, hreads, -⟩ := Scalar.registers_of_ofStep step hs ha
  have hagree : Agree (· ∈ step.sources) c.registers d.registers :=
    ⟨hsize.symm, fun r hr => (hvars r hr).symm⟩
  obtain ⟨hresult, -, hvalue⟩ := @Scalar.eval_matches _ c.externals s _ _ hagree hreads
  rw [hres, hres', hctl, hctl', he', hcol]
  simp only [Column.run, Scalar.run, Control.reg, hext, ← hreg]
  exact ⟨hresult.symm, fun h => (hvalue h).symm⟩

/-- Once it is reset, an evaluator of an expression comes to what the expression is worth, whatever
was evaluated before, and a variable that the caller binds is worth what it is bound to. -/
theorem next_computes (he : Column.ofStep step = .ok e.column)
    (ha : step.containsAggregate = false) (hvars : ∀ r ∈ step.sources, r ∉ step.targets)
    (hregs : ∀ r ∈ step.targets, r < c.size) :
    step.Evaluates c (e.reset.next c) ∧
    (∀ (e' : Evaluator) (d : Control), e'.column = e.column → d.externals = c.externals →
      d.size = c.size → (∀ r ∈ step.sources, d.reg r = c.reg r) →
      (e'.reset.next d).1 = (e.reset.next c).1 ∧ ((e.reset.next c).1 = .ok true →
        (e'.reset.next d).2.2.reg step.reg = (e.reset.next c).2.2.reg step.reg)) ∧
    ∀ (plan : Plan) (bindings : Bindings) (path : List Role) (r : Nat) (name : String) (id : Nat),
      plan.validate = .ok () → plan.bind bindings = .ok c.externals →
      plan.root.at? path = some (.externalVarRef r name id) →
      ∃ v, Record.get? bindings name = some v ∧
        (PlanStep.externalVarRef r name id).value c.externals c.reg = .ok (some v) := by
  refine ⟨next_evaluates he ha hvars hregs, fun _ _ => next_congr he ha,
    fun plan bindings path r name id hv hb hat => ?_⟩
  have hcheck := PlanStep.check_of_at? (Plan.rules_of_validate hv).2.2 hat
  obtain ⟨_, -, hdeclared⟩ := ok_of_bind hcheck
  obtain ⟨var, hvar, hname⟩ := (Option.any_eq_true ..).1 (require_eq_ok.1 hdeclared)
  obtain ⟨v, hget, hplace⟩ := Plan.getElem?_bind hv hb hvar
  refine ⟨v, beq_iff_eq.1 hname ▸ hget, ?_⟩
  simp only [PlanStep.value, boundVariable, hplace]
  rfl

/-- How much a field exceeds what the caller gives. -/
def excess : PlanStep :=
  .arith 4 .additive [.field 1 (.varRef 0 "$row") "k", .externalVarRef 2 "$x" 0] "+-"

/-- It is evaluated for a second row, with what the first one left behind. -/
theorem next_computes_excess :
    let plan : Plan :=
      { root := .select 5 (.receive 0 ⟨.allPartitions, [], []⟩) ⟨"", ["d"], none, false⟩
          [excess] none none, registers := 6, externals := [⟨"$x", 0⟩] }
    let c : Control :=
      { Control.ofConfig {} 6 with
        registers := [.map [("k", .integer 5)], .integer 4, .integer 3, .empty, .integer 1, .empty]
        externals := [some (.integer 3)] }
    let e : Evaluator :=
      { column := .scalar (.arith 4 .additive
          [(.add, .field 1 (.var 0) "k"), (.subtract, .external 2 "$x" 0)])
        marks := .node true [.node true [.node true []], .node true []] }
    plan.validate = .ok () ∧ plan.bind [("$x", .integer 3)] = .ok c.externals ∧
      Column.ofStep excess = .ok e.column ∧ (e.next c).1 = .ok false ∧
      (e.reset.next c).1 = .ok true ∧ (e.reset.next c).2.2.reg 4 = .integer 2 ∧
      (PlanStep.externalVarRef 2 "$x" 0).value c.externals c.reg = .ok (some (.integer 3)) := by
  intro plan c e
  obtain ⟨heval, -, hvar⟩ := @next_computes excess e c rfl rfl (by decide) (by decide)
  obtain ⟨v, hv, hworth⟩ := hvar plan [("$x", .integer 3)] [.column 0, .operand 1] 2 "$x" 0
    rfl rfl rfl
  cases hv
  exact ⟨rfl, rfl, rfl, rfl, heval.result, heval.left (.integer 2) rfl, hworth⟩

end Evaluator
end ShardQuery
