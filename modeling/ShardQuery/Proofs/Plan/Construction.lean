import ShardQuery.Plan.Json
import ShardQuery.Proofs.Operator.Reference
import ShardQuery.Proofs.Operator.Scope
import ShardQuery.Proofs.Plan.Rejection

/-!
What becomes of a plan that keeps the rules. Its operators can be made and name only what is there,
but for one gap in the rules: a select step may have a step that produces rows for a column, an
offset or a limit, and is then turned down when it is made.
-/

namespace ShardQuery

/-- What the plan provides for. -/
def Plan.scope (plan : Plan) : Scope := ⟨plan.registers, plan.externals.length⟩

theorem require_eq_ok {rule : Bool} {reason : String} :
    require rule reason = .ok () ↔ rule = true := by
  cases rule <;> simp [require]

/-! ## The rules, one by one -/

namespace PlanStep
variable {plan : Plan} {parent step : PlanStep}

theorem checkSelf_of_check (h : step.check plan = .ok ()) : step.checkSelf plan = .ok () := by
  cases step with
  | const | varRef | externalVarRef | receive => exact h
  | field | arith | aggregate | select | group | sort =>
    obtain ⟨_, hs, -⟩ := ok_of_bind h
    exact hs

theorem reg_lt_of_check (h : step.check plan = .ok ()) : step.reg < plan.registers := by
  obtain ⟨_, hr, -⟩ := ok_of_bind (checkSelf_of_check h)
  exact of_decide_eq_true (require_eq_ok.1 hr)

/-- The input of an expression is an expression. -/
theorem filter_of_checkInput (hp : parent.producesRows = false)
    (h : parent.checkInput step = .ok ()) : [step].filter producesRows = [] := by
  have h := require_eq_ok.1 h
  rw [hp, Bool.false_or, Bool.not_eq_true'] at h
  exact List.filter_cons_of_neg (by rw [h]; exact Bool.false_ne_true)

theorem checkAll_eq_ok {steps : List PlanStep} :
    check.checkAll plan parent steps = .ok () ↔
      ∀ s ∈ steps, parent.checkInput s = .ok () ∧ s.check plan = .ok () := by
  induction steps with
  | nil => exact ⟨fun _ => List.forall_mem_nil _, fun _ => rfl⟩
  | cons s rest ih =>
    rw [List.forall_mem_cons, ← ih]
    constructor
    · intro h
      obtain ⟨_, hi, h⟩ := ok_of_bind h
      obtain ⟨_, hs, h⟩ := ok_of_bind h
      exact ⟨⟨hi, hs⟩, h⟩
    · rintro ⟨⟨hi, hs⟩, h⟩
      simp only [check.checkAll, hi, hs]
      exact h

theorem checkOption_eq_ok {step : Option PlanStep} :
    check.checkOption plan parent step = .ok () ↔
      ∀ s ∈ step, parent.checkInput s = .ok () ∧ s.check plan = .ok () := by
  cases step with
  | none => simp [check.checkOption]
  | some s =>
    simp only [Option.mem_some_iff, forall_eq']
    constructor
    · intro h
      obtain ⟨_, hi, hs⟩ := ok_of_bind h
      exact ⟨hi, hs⟩
    · rintro ⟨hi, hs⟩
      simp only [check.checkOption, hi]
      exact hs

end PlanStep

/-! ## Steps where they cannot be -/

namespace PlanStep

/-- The columns, offsets and limits on the way down to the scan that are no expressions, in the
order in which they are come upon. -/
def strays : PlanStep → List PlanStep
  | .select _ source _ columns offset limit =>
    columns.filter producesRows ++
      (source.strays ++ (offset.toList.filter producesRows ++ limit.toList.filter producesRows))
  | .group _ input _ | .sort _ input _ _ => input.strays
  | _ => []

/-- What is said of a step that produces rows where only an expression can be. -/
def misplaced (step : PlanStep) : QueryError :=
  .protocol s!"{step.kindName} step used where a scalar is expected"

end PlanStep

/-- Something good is made if there are no strays. Otherwise the first of them is turned down. -/
inductive Builds {α : Type} (good : α → Prop) : List PlanStep → Except QueryError α → Prop where
  | made {a : α} (h : good a) : Builds good [] (.ok a)
  | refused (step : PlanStep) (rest : List PlanStep) :
    Builds good (step :: rest) (.error step.misplaced)

namespace Builds
variable {α β : Type} {l l' : List PlanStep} {good : α → Prop} {fine : β → Prop}
  {x : Except QueryError α} {f : α → Except QueryError β}

theorem bind (h : Builds good l x) (hf : ∀ a, good a → Builds fine l' (f a)) :
    Builds fine (l ++ l') (x >>= f) := by
  cases h with
  | made ha => exact hf _ ha
  | refused step rest => exact .refused step (rest ++ l')

theorem map {g : α → β} (h : Builds good l x) (hg : ∀ a, good a → fine (g a)) :
    Builds fine l (x >>= fun a => .ok (g a)) :=
  l.append_nil ▸ h.bind fun a ha => .made (hg a ha)

theorem exists_ok (h : Builds good l x) (hl : l = []) : ∃ a, x = .ok a ∧ good a := by
  cases h with
  | made ha => exact ⟨_, rfl, ha⟩
  | refused => cases hl

theorem mapM {f : PlanStep → Except QueryError α} {good : PlanStep → α → Prop}
    {steps : List PlanStep}
    (h : ∀ s ∈ steps, Builds (good s) ([s].filter PlanStep.producesRows) (f s)) :
    Builds (List.Forall₂ good steps) (steps.filter PlanStep.producesRows) (steps.mapM f) := by
  induction steps with
  | nil => exact .made .nil
  | cons s rest ih =>
    obtain ⟨hs, hrest⟩ := List.forall_mem_cons.1 h
    rw [List.mapM_cons]
    exact (List.filter_append [s] rest) ▸
      hs.bind fun a ha => (ih hrest).map fun as has => .cons ha has

end Builds

/-! ## Expressions and columns -/

namespace Scalar
variable {plan : Plan}

/-- The operators that the rules allow can be read. -/
theorem ops_of_checkOps {kind : ArithKind} {args : List PlanStep} {text : String}
    (h : PlanStep.checkOps kind args text = .ok ()) :
    ∃ symbols, ops text = .ok symbols ∧ symbols.length = args.length := by
  obtain ⟨_, hl, h⟩ := ok_of_bind h
  have hl := require_eq_ok.1 hl
  have hlegal : ∀ c ∈ text.toList, PlanStep.legalOp kind c = true := by
    intro c hc
    split at h
    · cases h
    · rename_i hn
      simpa using List.find?_eq_none.1 hn c hc
  obtain ⟨symbols, hs⟩ : ∃ symbols, ops text = .ok symbols := by
    refine exists_mapM fun c hc => ?_
    have hc := hlegal c hc
    cases ho : ArithOp.ofChar? c with
    | none =>
      rw [PlanStep.legalOp, ho] at hc
      cases hc
    | some op => exact ⟨op, rfl⟩
  refine ⟨symbols, hs, ?_⟩
  have hlen := (mapM_eq_ok_iff.1 hs).length_eq
  simp only [Bool.and_eq_true, beq_iff_eq] at hl
  rw [← hlen, ← hl.2, String.length_toList]

theorem fitArgs_zip {σ : Scope} {symbols : List ArithOp} {args : List Scalar}
    (h : ∀ s ∈ args, s.Fits σ) : FitArgs σ (symbols.zip args) := by
  induction symbols generalizing args with
  | nil => trivial
  | cons op rest ih =>
    cases args with
    | nil => trivial
    | cons s args =>
      obtain ⟨hs, hargs⟩ := List.forall_mem_cons.1 h
      exact ⟨hs, ih hargs⟩

mutual

theorem ofStep_builds : ∀ step : PlanStep, step.check plan = .ok () →
    Builds (·.Fits plan.scope) ([step].filter PlanStep.producesRows) (ofStep step)
  | .const .., h | .varRef .., h => .made (PlanStep.reg_lt_of_check h)
  | .externalVarRef r name id, h => by
    have hr := PlanStep.reg_lt_of_check h
    obtain ⟨_, -, h⟩ := ok_of_bind h
    refine .made ⟨hr, ?_⟩
    obtain ⟨_, hv, -⟩ := (Option.any_eq_true ..).1 (require_eq_ok.1 h)
    exact (List.getElem?_eq_some_iff.1 hv).1
  | .field r input name, h => by
    have hr := PlanStep.reg_lt_of_check h
    obtain ⟨_, -, h⟩ := ok_of_bind h
    obtain ⟨_, hi, h⟩ := ok_of_bind h
    obtain ⟨s, hs, hfits⟩ := (ofStep_builds input h).exists_ok
      (PlanStep.filter_of_checkInput rfl hi)
    rw [ofStep, hs]
    exact .made ⟨hr, hfits⟩
  | .arith r kind args text, h => by
    have hr := PlanStep.reg_lt_of_check h
    obtain ⟨_, hself, h⟩ := ok_of_bind h
    obtain ⟨_, -, hops⟩ := ok_of_bind hself
    obtain ⟨symbols, hs, hlen⟩ := ops_of_checkOps hops
    obtain ⟨ss, hss, hfits⟩ := ofSteps_ok args rfl (PlanStep.checkAll_eq_ok.1 h)
    rw [ofStep, hs, hss]
    simp only [bind, Except.bind, hlen]
    rw [if_neg (by simp)]
    exact .made ⟨hr, fitArgs_zip hfits⟩
  | .aggregate r func input, h => by
    have hr := PlanStep.reg_lt_of_check h
    obtain ⟨_, hself, h⟩ := ok_of_bind h
    rw [ofStep, ofInput_ok input hself (PlanStep.checkOption_eq_ok.1 h)]
    exact .made hr
  | .select .., _ | .group .., _ | .sort .., _ | .receive .., _ => .refused _ []

theorem ofSteps_ok {parent : PlanStep} : ∀ steps : List PlanStep, parent.producesRows = false →
    (∀ s ∈ steps, parent.checkInput s = .ok () ∧ s.check plan = .ok ()) →
    ∃ ss, ofStep.ofSteps steps = .ok ss ∧ ∀ s ∈ ss, s.Fits plan.scope
  | [], _, _ => ⟨[], rfl, List.forall_mem_nil _⟩
  | step :: rest, hp, h => by
    obtain ⟨⟨hi, hstep⟩, hrest⟩ := List.forall_mem_cons.1 h
    obtain ⟨s, hs, hfits⟩ := (ofStep_builds step hstep).exists_ok
      (PlanStep.filter_of_checkInput hp hi)
    obtain ⟨ss, hss, hall⟩ := ofSteps_ok rest hp hrest
    refine ⟨s :: ss, ?_, List.forall_mem_cons.2 ⟨hfits, hall⟩⟩
    rw [ofStep.ofSteps, hs, hss]
    rfl

theorem ofInput_ok {r : Nat} {func : AggregateFunc} : ∀ input : Option PlanStep,
    (PlanStep.aggregate r func input).checkSelf plan = .ok () →
    (∀ s ∈ input, (PlanStep.aggregate r func input).checkInput s = .ok () ∧
      s.check plan = .ok ()) → ofStep.ofInput func input = .ok ()
  | none, hself, _ => by
    obtain ⟨_, -, h⟩ := ok_of_bind hself
    rw [ofStep.ofInput, if_pos (by simpa using require_eq_ok.1 h)]
  | some step, _, h => by
    obtain ⟨hi, hstep⟩ := h step rfl
    obtain ⟨s, hs, -⟩ := (ofStep_builds step hstep).exists_ok
      (PlanStep.filter_of_checkInput rfl hi)
    rw [ofStep.ofInput, hs]
    rfl

end

end Scalar

namespace Column
variable {plan : Plan}

/-- What a column is that was made of a step. -/
def Made (plan : Plan) (step : PlanStep) (col : Column) : Prop :=
  col.Fits plan.scope ∧ col.isAggregate = step.isAggregate

theorem ofStep_builds (step : PlanStep) (h : step.check plan = .ok ()) :
    Builds (Made plan step) ([step].filter PlanStep.producesRows) (ofStep step) := by
  have hscalar := Scalar.ofStep_builds step h
  cases step with
  | aggregate r func input =>
    have hr := PlanStep.reg_lt_of_check h
    obtain ⟨_, hself, h⟩ := ok_of_bind h
    have hinput := PlanStep.checkOption_eq_ok.1 h
    cases input with
    | none =>
      rw [ofStep, Scalar.ofInput_ok none hself hinput]
      exact .made ⟨⟨hr, fun _ hs => by cases hs⟩, rfl⟩
    | some step =>
      obtain ⟨hi, hstep⟩ := hinput step rfl
      obtain ⟨s, hs, hfits⟩ := (Scalar.ofStep_builds step hstep).exists_ok
        (PlanStep.filter_of_checkInput rfl hi)
      rw [ofStep, hs]
      exact .made ⟨⟨hr, fun _ hs => by cases hs; exact hfits⟩, rfl⟩
  | const | varRef | externalVarRef | field | arith =>
    obtain ⟨s, hs, hfits⟩ := hscalar.exists_ok rfl
    simp only [ofStep, hs]
    exact .made ⟨hfits, rfl⟩
  | select | group | sort | receive => exact .refused _ []

theorem fits_of_made {steps : List PlanStep} {cols : List Column}
    (h : List.Forall₂ (Made plan) steps cols) : ∀ col ∈ cols, col.Fits plan.scope := by
  induction h with
  | nil => exact List.forall_mem_nil _
  | cons h _ ih => exact List.forall_mem_cons.2 ⟨h.1, ih⟩

theorem map_isAggregate_of_made {steps : List PlanStep} {cols : List Column}
    (h : List.Forall₂ (Made plan) steps cols) :
    cols.map isAggregate = steps.map PlanStep.isAggregate := by
  induction h with
  | nil => rfl
  | cons h _ ih => rw [List.map_cons, List.map_cons, h.2, ih]

/-- Where aggregates stand is checked twice, with the same result. -/
theorem checkColumns_of_made {steps : List PlanStep} {cols : List Column} {info : SelectInfo}
    (hcols : List.Forall₂ (Made plan) steps cols)
    (h : PlanStep.checkColumns info steps = .ok ()) :
    Selection.checkColumns info.grouping cols = .ok () ∧
      ∀ col ∈ cols.drop (info.grouping.getD cols.length), col.isAggregate = true := by
  have hmap := map_isAggregate_of_made hcols
  unfold PlanStep.checkColumns at h
  unfold Selection.checkColumns
  split at h
  · rename_i gb hg
    obtain ⟨_, hlen, h⟩ := ok_of_bind h
    obtain ⟨_, haggs, -⟩ := ok_of_bind h
    have hlen : gb ≤ cols.length := by
      have := require_eq_ok.1 hlen
      simp only [Bool.and_eq_true, decide_eq_true_eq] at this
      rw [← hcols.length_eq]
      exact this.2
    have haggs : (cols.drop gb).all isAggregate = true := by
      have := require_eq_ok.1 haggs
      rwa [← Function.id_comp PlanStep.isAggregate, ← List.all_map, List.map_drop, ← hmap,
        ← List.map_drop, List.all_map] at this
    simp only [hg, haggs, Option.getD_some, Nat.not_lt.2 hlen, decide_false, Bool.not_true,
      Bool.or_self]
    exact ⟨rfl, List.all_eq_true.1 haggs⟩
  · rename_i hg
    have hnone : cols.any isAggregate = false := by
      have hnone : steps.any PlanStep.containsAggregate = false := by
        simpa using require_eq_ok.1 h
      rw [← Function.id_comp isAggregate, ← List.any_map, hmap, List.any_map]
      refine List.any_eq_false.2 fun step hs ha => List.any_eq_false.1 hnone step hs ?_
      cases step with
      | aggregate => rfl
      | _ => cases ha
    simp only [hg, hnone, Option.getD_none, List.drop_length]
    exact ⟨rfl, List.forall_mem_nil _⟩

end Column

theorem Scan.exists_ofInfo {plan : Plan} {r : Nat} {info : ReceiveInfo}
    (h : (PlanStep.receive r info).check plan = .ok ()) :
    ∃ s, ofInfo r info plan.shards = .ok s ∧ s.reg = r := by
  obtain ⟨_, -, h⟩ := ok_of_bind h
  obtain ⟨_, -, h⟩ := ok_of_bind h
  have h := require_eq_ok.1 h
  unfold ofInfo
  simp only
  split
  · exact ⟨_, rfl, rfl⟩
  · exact ⟨_, rfl, rfl⟩
  · exact ⟨_, rfl, rfl⟩
  · rename_i hdist hspecs
    have hshards : plan.shards.isEmpty = false := by
      simpa [hdist, List.isEmpty_eq_false_iff.2 hspecs] using h
    rw [hshards]
    exact ⟨_, rfl, rfl⟩

/-- Added up in words of 64 bits, the columns of a group agree with its names if there are as many, or
if the words run over. There are more grouping columns than names then. -/
theorem GroupInfo.words_agree_iff {info : GroupInfo} (hgrouping : info.grouping < 2 ^ 64)
    (hfuncs : info.funcs.length < 2 ^ 64) (hnames : info.names.length < 2 ^ 64) :
    UInt64.ofNat info.grouping + UInt64.ofNat info.funcs.length = UInt64.ofNat info.names.length ↔
      info.grouping + info.funcs.length = info.names.length ∨
        info.names.length < info.grouping ∧
          info.grouping + info.funcs.length = info.names.length + 2 ^ 64 := by
  rw [← UInt64.ofNat_add, ← UInt64.toNat_inj, UInt64.toNat_ofNat', UInt64.toNat_ofNat']
  omega

namespace Operator
variable {plan : Plan}

theorem ofBound_builds {bound : Option PlanStep} (h : ∀ s ∈ bound, s.check plan = .ok ()) :
    Builds (fun b => ∀ s ∈ b, s.Fits plan.scope) (bound.toList.filter PlanStep.producesRows)
      (ofStep.ofBound bound) := by
  cases bound with
  | none => exact .made fun _ hs => by cases hs
  | some step =>
    exact (Scalar.ofStep_builds step (h step rfl)).map fun s hs _ h => by cases h; exact hs

/-- The operators can be made of steps that keep the rules, and name only what is there, unless
steps are astray. -/
theorem ofStep_builds : ∀ step : PlanStep, step.producesRows = true → step.check plan = .ok () →
    Builds (·.Fits plan.scope) step.strays (ofStep plan.shards step)
  | .receive r info, _, h => by
    have hr := PlanStep.reg_lt_of_check h
    obtain ⟨s, hs, rfl⟩ := Scan.exists_ofInfo h
    rw [ofStep, hs]
    exact .made hr
  | .group r input info, _, h => by
    have hr := PlanStep.reg_lt_of_check h
    obtain ⟨_, hself, h⟩ := ok_of_bind h
    obtain ⟨_, -, h⟩ := ok_of_bind h
    obtain ⟨_, -, hself⟩ := ok_of_bind hself
    obtain ⟨_, hnames, hrows⟩ := ok_of_bind hself
    have hnames : info.grouping + info.funcs.length = info.names.length := by
      simpa using require_eq_ok.1 hnames
    rw [ofStep, hnames, if_neg (by simp)]
    refine (ofStep_builds input (require_eq_ok.1 hrows) h).map fun op hop => ⟨?_, hop⟩
    exact ⟨hr, PlanStep.reg_lt_of_check h, Grouping.queued_of_nil rfl rfl⟩
  | .sort r input specs countMemory, _, h => by
    have hr := PlanStep.reg_lt_of_check h
    obtain ⟨_, hself, h⟩ := ok_of_bind h
    obtain ⟨_, -, h⟩ := ok_of_bind h
    obtain ⟨_, -, hself⟩ := ok_of_bind hself
    obtain ⟨_, hspecs, hrows⟩ := ok_of_bind hself
    have hspecs : specs.isEmpty = false := by simpa using require_eq_ok.1 hspecs
    rw [ofStep, hspecs, if_neg (by simp)]
    refine (ofStep_builds input (require_eq_ok.1 hrows) h).map fun op hop => ⟨?_, hop⟩
    exact ⟨hr, PlanStep.reg_lt_of_check h⟩
  | .select r source info columns offset limit, _, h => by
    have hr := PlanStep.reg_lt_of_check h
    obtain ⟨_, hself, h⟩ := ok_of_bind h
    obtain ⟨_, -, h⟩ := ok_of_bind h
    obtain ⟨_, hsource, h⟩ := ok_of_bind h
    obtain ⟨_, hcolumns, h⟩ := ok_of_bind h
    obtain ⟨_, hoffset, hlimit⟩ := ok_of_bind h
    obtain ⟨_, -, hself⟩ := ok_of_bind hself
    obtain ⟨_, hrows, hself⟩ := ok_of_bind hself
    obtain ⟨_, -, hself⟩ := ok_of_bind hself
    refine .bind (.mapM fun step hs =>
      Column.ofStep_builds step (PlanStep.checkAll_eq_ok.1 hcolumns step hs).2) fun cols hcols => ?_
    obtain ⟨hcheck, haggs⟩ := Column.checkColumns_of_made hcols hself
    have hfits : ∀ col ∈ cols, col.Fits plan.scope := Column.fits_of_made hcols
    rw [hcheck]
    change Builds _ _ (ofStep plan.shards source >>= _)
    refine .bind (ofStep_builds source (require_eq_ok.1 hrows) hsource) fun op hop =>
      .bind (ofBound_builds fun s hs => (PlanStep.checkOption_eq_ok.1 hoffset s hs).2) fun o ho =>
        .map (ofBound_builds fun s hs => (PlanStep.checkOption_eq_ok.1 hlimit s hs).2) fun l hl =>
          ?_
    refine ⟨⟨hr, PlanStep.reg_lt_of_check hsource, ?_, ?_, ho, hl⟩, hop⟩
    · exact fun col hc => hfits col (List.mem_of_mem_take hc)
    · exact fun col hc => ⟨hfits col (List.mem_of_mem_drop hc), haggs col hc⟩

end Operator

namespace Plan
variable {plan : Plan}

theorem rules_of_validate (h : plan.validate = .ok ()) :
    plan.root.producesRows = true ∧ checkVariables 0 plan.externals = .ok () ∧
      plan.root.check plan = .ok () := by
  obtain ⟨_, -, h⟩ := ok_of_bind h
  obtain ⟨_, hrows, h⟩ := ok_of_bind h
  obtain ⟨_, hvars, h⟩ := ok_of_bind h
  exact ⟨require_eq_ok.1 hrows, hvars, h⟩

/-- A plan that keeps the rules can be started, and all that its operators name is there, unless a
step is astray. Then the first such step is turned down. -/
theorem ofStep_builds (h : plan.validate = .ok ()) :
    Builds (·.Fits plan.scope) plan.root.strays (Operator.ofStep plan.shards plan.root) := by
  obtain ⟨hrows, -, hcheck⟩ := rules_of_validate h
  exact Operator.ofStep_builds plan.root hrows hcheck

/-- What the rules leave open. The operators of a plan that keeps them can be made if and only if no
step is astray: whatever else making them turns down, the rules have turned down before. -/
theorem exists_ofStep_iff_strays (h : plan.validate = .ok ()) :
    ((∃ op, Operator.ofStep plan.shards plan.root = .ok op) ↔ plan.root.strays = []) ∧
      ∀ step ∈ plan.root.strays.head?,
        Operator.ofStep plan.shards plan.root = .error step.misplaced := by
  have hbuilds := ofStep_builds h
  generalize Operator.ofStep plan.shards plan.root = x at hbuilds ⊢
  generalize plan.root.strays = l at hbuilds ⊢
  cases hbuilds with
  | made _ => exact ⟨⟨fun _ => rfl, fun _ => ⟨_, rfl⟩⟩, fun _ hs => by cases hs⟩
  | refused step rest =>
    refine ⟨iff_of_false ?_ (List.cons_ne_nil step rest), fun _ hs => by cases hs; rfl⟩
    rintro ⟨_, h⟩
    cases h

/-- A scan of all partitions whose rows a select step goes through. -/
def selecting (columns : List PlanStep) (offset limit : Option PlanStep) : Plan where
  root := .select 2 (.receive 0 ⟨.allPartitions, [], []⟩) ⟨"", ["x"], none, false⟩ columns
    offset limit
  registers := 4

theorem exists_ofStep_iff_strays_field :
    let plan := selecting [.field 1 (.varRef 0 "$row") "k"] (some (.const 3 (.integer 1))) none
    plan.validate = .ok () ∧ ∃ op, Operator.ofStep plan.shards plan.root = .ok op :=
  ⟨rfl, (exists_ofStep_iff_strays rfl).1.2 rfl⟩

/-- A scan keeps the rules as a column, as an offset and as a limit, and is turned down as each. -/
theorem validate_strays :
    let scan := PlanStep.receive 1 ⟨.allPartitions, [], []⟩
    ∀ plan ∈ [selecting [scan] none none,
        selecting [.field 3 (.varRef 0 "$row") "k"] (some scan) none,
        selecting [.field 3 (.varRef 0 "$row") "k"] none (some scan)],
      plan.validate = .ok () ∧
        Operator.ofStep plan.shards plan.root =
          .error (.protocol "RECEIVE step used where a scalar is expected") := by
  intro scan
  refine List.forall_mem_cons.2 ⟨⟨rfl, rfl⟩, List.forall_mem_cons.2 ⟨⟨rfl, rfl⟩, ?_⟩⟩
  exact List.forall_mem_singleton.2 ⟨rfl, rfl⟩

end Plan
end ShardQuery
