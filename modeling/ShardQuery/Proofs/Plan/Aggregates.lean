import ShardQuery.Proofs.Operator.Program
import ShardQuery.Proofs.Plan.Construction

/-!
Where the rules let aggregates stand. In the columns of a select step an aggregate is one that rows
are folded into, and is no part of anything else. An offset or a limit is not looked at: there an
aggregate can be any part of the expression, and is evaluated although no row is folded into it.
-/

namespace ShardQuery

/-! ## Places in a plan -/

/-- What an input is to the step above it. -/
inductive Role where
  /-- The input rows. -/
  | rows
  /-- A part of an expression, or what an aggregate is taken of. -/
  | operand (place : Nat)
  | column (place : Nat)
  | offset
  | limit
  deriving DecidableEq, Repr

namespace Role

def isOperand : Role → Bool
  | .operand _ => true
  | _ => false

def isBound : Role → Bool
  | .offset | .limit => true
  | _ => false

end Role

namespace PlanStep

def input? : PlanStep → Role → Option PlanStep
  | .field _ input _, .operand 0 => some input
  | .arith _ _ args _, .operand i => args[i]?
  | .aggregate _ _ input, .operand 0 => input
  | .select _ source _ _ _ _, .rows => some source
  | .select _ _ _ columns _ _, .column i => columns[i]?
  | .select _ _ _ _ offset _, .offset => offset
  | .select _ _ _ _ _ limit, .limit => limit
  | .group _ input _, .rows | .sort _ input _ _, .rows => some input
  | _, _ => none

/-- The step at the end of a way down. -/
def at? : PlanStep → List Role → Option PlanStep
  | step, [] => some step
  | step, role :: path => (step.input? role).bind (·.at? path)

variable {plan : Plan} {step s a : PlanStep} {role : Role} {path : List Role}

theorem mem_children : s ∈ step.children ↔ ∃ role, step.input? role = some s := by
  constructor
  · intro h
    cases step with
    | const | varRef | externalVarRef | receive => cases h
    | field r input name => exact ⟨.operand 0, (List.mem_singleton.1 h) ▸ rfl⟩
    | group r input info | sort r input specs countMemory =>
      exact ⟨.rows, (List.mem_singleton.1 h) ▸ rfl⟩
    | arith r kind args ops =>
      obtain ⟨i, hi⟩ := List.mem_iff_getElem?.1 h
      exact ⟨.operand i, hi⟩
    | aggregate r func input => exact ⟨.operand 0, Option.mem_toList.1 h⟩
    | select r source info columns offset limit =>
      simp only [children, List.cons_append, List.append_assoc, List.mem_cons, List.mem_append,
        Option.mem_toList] at h
      rcases h with rfl | h | h | h
      · exact ⟨.rows, rfl⟩
      · obtain ⟨i, hi⟩ := List.mem_iff_getElem?.1 h
        exact ⟨.column i, hi⟩
      · exact ⟨.offset, h⟩
      · exact ⟨.limit, h⟩
  · rintro ⟨role, h⟩
    unfold input? at h
    split at h <;> simp_all [children]
    · exact List.mem_of_getElem? h
    · exact .inr (.inl (List.mem_of_getElem? h))

theorem at?_append (step : PlanStep) (above below : List Role) :
    step.at? (above ++ below) = (step.at? above).bind (·.at? below) := by
  induction above generalizing step with
  | nil => rfl
  | cons role above ih =>
    simp only [List.cons_append, at?, Option.bind_assoc]
    exact congrArg _ (funext ih)

theorem at?_cons (h : step.at? (role :: path) = some a) :
    ∃ s, step.input? role = some s ∧ s.at? path = some a := Option.bind_eq_some_iff.1 h

/-- The offset and the limit. -/
def bounds : PlanStep → List PlanStep
  | .select _ _ _ _ offset limit => offset.toList ++ limit.toList
  | _ => []

theorem mem_bounds : s ∈ step.bounds ↔ ∃ role : Role, role.isBound = true ∧
    step.input? role = some s := by
  constructor
  · intro h
    cases step with
    | select r source info columns offset limit =>
      simp only [bounds, List.mem_append, Option.mem_toList] at h
      rcases h with h | h
      · exact ⟨.offset, rfl, h⟩
      · exact ⟨.limit, rfl, h⟩
    | _ => cases h
  · rintro ⟨role, hr, h⟩
    unfold input? at h
    split at h <;> simp_all [Role.isBound, bounds]

/-! ## Aggregates in expressions -/

theorem anyContainsAggregate_eq (steps : List PlanStep) :
    containsAggregate.anyContainsAggregate steps = steps.any containsAggregate := by
  induction steps with
  | nil => rfl
  | cons s rest ih => rw [containsAggregate.anyContainsAggregate, List.any_cons, ih]

theorem containsAggregate_of_input? (hr : role.isOperand = true)
    (hs : step.input? role = some s) (h : s.containsAggregate = true) :
    step.containsAggregate = true := by
  unfold input? at hs
  split at hs <;> simp_all [Role.isOperand, containsAggregate, anyContainsAggregate_eq]
  exact ⟨s, List.mem_of_getElem? hs, h⟩

theorem containsAggregate_of_at? (hp : ∀ role ∈ path, role.isOperand = true)
    (ha : step.at? path = some a) (h : a.isAggregate = true) :
    step.containsAggregate = true := by
  induction path generalizing step with
  | nil =>
    cases ha
    cases a with
    | aggregate => rfl
    | _ => cases h
  | cons role path ih =>
    obtain ⟨hr, hp⟩ := List.forall_mem_cons.1 hp
    obtain ⟨s, hs, ha⟩ := at?_cons ha
    exact containsAggregate_of_input? hr hs (ih hp ha)

mutual

theorem exists_at?_of_containsAggregate : ∀ step : PlanStep, step.containsAggregate = true →
    ∃ path a, (∀ role ∈ path, role.isOperand = true) ∧ step.at? path = some a ∧
      a.isAggregate = true
  | .aggregate r func input, _ => ⟨[], _, List.forall_mem_nil _, rfl, rfl⟩
  | .field r input name, h => by
    obtain ⟨path, a, hp, ha, hagg⟩ := exists_at?_of_containsAggregate input h
    exact ⟨.operand 0 :: path, a, List.forall_mem_cons.2 ⟨rfl, hp⟩, ha, hagg⟩
  | .arith r kind args ops, h => by
    obtain ⟨i, s, path, a, hs, hp, ha, hagg⟩ := exists_at?_of_anyContainsAggregate args h
    refine ⟨.operand i :: path, a, List.forall_mem_cons.2 ⟨rfl, hp⟩, ?_, hagg⟩
    rw [at?, input?, hs]
    exact ha

theorem exists_at?_of_anyContainsAggregate : ∀ steps : List PlanStep,
    containsAggregate.anyContainsAggregate steps = true →
    ∃ (i : Nat) (s : PlanStep) (path : List Role) (a : PlanStep), steps[i]? = some s ∧
      (∀ role ∈ path, role.isOperand = true) ∧ s.at? path = some a ∧ a.isAggregate = true
  | s :: rest, h => by
    rcases Bool.or_eq_true _ _ ▸ h with h | h
    · obtain ⟨path, a, hp, ha, hagg⟩ := exists_at?_of_containsAggregate s h
      exact ⟨0, s, path, a, rfl, hp, ha, hagg⟩
    · obtain ⟨i, t, path, a, hs, hp, ha, hagg⟩ := exists_at?_of_anyContainsAggregate rest h
      exact ⟨i + 1, t, path, a, hs, hp, ha, hagg⟩

end

/-! ## What the rules say of inputs -/

theorem check_of_input? (h : step.check plan = .ok ()) (hs : step.input? role = some s) :
    step.checkInput s = .ok () ∧ s.check plan = .ok () := by
  have hrows : step.producesRows = true → step.checkInput s = .ok () := by
    intro hp
    simp [checkInput, hp, require]
  have hs := mem_children.2 ⟨role, hs⟩
  cases step with
  | const | varRef | externalVarRef | receive => cases hs
  | field r input name =>
    cases List.mem_singleton.1 hs
    obtain ⟨_, -, h⟩ := ok_of_bind h
    obtain ⟨_, hi, h⟩ := ok_of_bind h
    exact ⟨hi, h⟩
  | arith r kind args ops =>
    obtain ⟨_, -, h⟩ := ok_of_bind h
    exact checkAll_eq_ok.1 h s hs
  | aggregate r func input =>
    obtain ⟨_, -, h⟩ := ok_of_bind h
    exact checkOption_eq_ok.1 h s (Option.mem_toList.1 hs)
  | group r input info | sort r input specs countMemory =>
    cases List.mem_singleton.1 hs
    obtain ⟨_, -, h⟩ := ok_of_bind h
    obtain ⟨_, -, h⟩ := ok_of_bind h
    exact ⟨hrows rfl, h⟩
  | select r source info columns offset limit =>
    obtain ⟨_, -, h⟩ := ok_of_bind h
    obtain ⟨_, -, h⟩ := ok_of_bind h
    obtain ⟨_, hsource, h⟩ := ok_of_bind h
    obtain ⟨_, hcolumns, h⟩ := ok_of_bind h
    obtain ⟨_, hoffset, hlimit⟩ := ok_of_bind h
    simp only [children, List.cons_append, List.append_assoc, List.mem_cons, List.mem_append,
      Option.mem_toList] at hs
    rcases hs with rfl | hs | hs | hs
    · exact ⟨hrows rfl, hsource⟩
    · exact checkAll_eq_ok.1 hcolumns s hs
    · exact checkOption_eq_ok.1 hoffset s hs
    · exact checkOption_eq_ok.1 hlimit s hs

theorem check_of_at? (h : step.check plan = .ok ()) (hs : step.at? path = some s) :
    s.check plan = .ok () := by
  induction path generalizing step with
  | nil =>
    cases hs
    exact h
  | cons role path ih =>
    obtain ⟨t, ht, hs⟩ := at?_cons hs
    exact ih (check_of_input? h ht).2 hs

/-- What is taken for rows produces rows. -/
theorem producesRows_of_input? (h : step.check plan = .ok ())
    (hs : step.input? .rows = some s) : s.producesRows = true := by
  have hself := checkSelf_of_check h
  obtain ⟨_, -, hself⟩ := ok_of_bind hself
  cases step with
  | select r source info columns offset limit =>
    cases hs
    obtain ⟨_, hrows, -⟩ := ok_of_bind hself
    exact require_eq_ok.1 hrows
  | group r input info | sort r input specs countMemory =>
    cases hs
    obtain ⟨_, -, hrows⟩ := ok_of_bind hself
    exact require_eq_ok.1 hrows
  | const | varRef | externalVarRef | receive | field | arith | aggregate => cases hs

/-- All steps below an expression are parts of it. -/
theorem operands_of_at? (hp : step.producesRows = false) (h : step.check plan = .ok ())
    (ha : step.at? path = some a) : ∀ role ∈ path, role.isOperand = true := by
  induction path generalizing step with
  | nil => exact List.forall_mem_nil _
  | cons role path ih =>
    obtain ⟨s, hs, ha⟩ := at?_cons ha
    obtain ⟨hi, h⟩ := check_of_input? h hs
    have hexpr : s.producesRows = false := by
      have hi := require_eq_ok.1 hi
      rwa [hp, Bool.false_or, Bool.not_eq_true'] at hi
    refine List.forall_mem_cons.2 ⟨?_, ih hexpr h ha⟩
    unfold input? at hs
    split at hs <;> first | rfl | cases hp | cases hs

/-- How many of the leading columns rows are grouped by, if they are. -/
def grouping : PlanStep → Option Nat
  | .select _ _ info _ _ _ => info.grouping
  | _ => none

/-- Columns that are read off each row have no aggregates in them. Those that rows are folded into
are aggregates, and taken of something without aggregates. -/
structure Columns (info : SelectInfo) (columns : List PlanStep) : Prop where
  read : ∀ s ∈ columns.take (info.grouping.getD columns.length), s.containsAggregate = false
  fold : ∀ s ∈ columns.drop (info.grouping.getD columns.length),
    s.isAggregate = true ∧ ∀ t ∈ s.children, t.containsAggregate = false

theorem columns_of_checkColumns {info : SelectInfo} {columns : List PlanStep}
    (h : checkColumns info columns = .ok ()) : Columns info columns := by
  unfold checkColumns at h
  split at h
  · rename_i gb hg
    obtain ⟨_, -, h⟩ := ok_of_bind h
    obtain ⟨_, haggs, h⟩ := ok_of_bind h
    have haggs := List.all_eq_true.1 (require_eq_ok.1 haggs)
    have hplain := require_eq_ok.1 h
    rw [Bool.not_eq_true', Bool.or_eq_false_iff, List.any_eq_false, List.any_eq_false] at hplain
    have hkeys : info.grouping.getD columns.length = gb := by rw [hg, Option.getD_some]
    refine ⟨hkeys ▸ fun s hs => Bool.eq_false_iff.2 (hplain.1 s hs),
      hkeys ▸ fun s hs => ⟨haggs s hs, ?_⟩⟩
    exact fun t ht => Bool.eq_false_iff.2 (hplain.2 t (List.mem_flatMap.2 ⟨s, hs, ht⟩))
  · rename_i hg
    have hplain := require_eq_ok.1 h
    rw [Bool.not_eq_true', List.any_eq_false] at hplain
    refine ⟨fun s hs => Bool.eq_false_iff.2 (hplain s (List.mem_of_mem_take hs)), fun s hs => ?_⟩
    rw [hg, Option.getD_none, List.drop_length] at hs
    cases hs

theorem columns_of_check {r : Nat} {source : PlanStep} {info : SelectInfo}
    {columns : List PlanStep} {offset limit : Option PlanStep}
    (h : (select r source info columns offset limit).check plan = .ok ()) :
    Columns info columns := by
  obtain ⟨_, -, h⟩ := ok_of_bind (checkSelf_of_check h)
  obtain ⟨_, -, h⟩ := ok_of_bind h
  obtain ⟨_, -, h⟩ := ok_of_bind h
  exact columns_of_checkColumns h

/-- An aggregate in a column is the column, and rows are folded into it. -/
theorem folded_of_column {info : SelectInfo} {columns : List PlanStep} {i : Nat}
    (h : Columns info columns) (hs : columns[i]? = some s)
    (hp : ∀ role ∈ path, role.isOperand = true) (ha : s.at? path = some a)
    (hagg : a.isAggregate = true) : path = [] ∧ ∃ gb, info.grouping = some gb ∧ gb ≤ i := by
  have hcontains := containsAggregate_of_at? hp ha hagg
  obtain ⟨hi, hsi⟩ := List.getElem?_eq_some_iff.1 hs
  have hkey : info.grouping.getD columns.length ≤ i := by
    by_contra hlt
    have hs := h.read s (List.mem_take_iff_getElem.2 ⟨i, by omega, hsi⟩)
    rw [hs] at hcontains
    cases hcontains
  refine ⟨?_, ?_⟩
  · obtain ⟨j, rfl⟩ := Nat.exists_eq_add_of_le hkey
    have hchildren := (h.fold s (List.mem_drop_iff_getElem.2 ⟨j, by omega, hsi⟩)).2
    cases path with
    | nil => rfl
    | cons role path =>
      obtain ⟨t, ht, ha⟩ := at?_cons ha
      have htc := containsAggregate_of_at? (List.forall_mem_cons.1 hp).2 ha hagg
      rw [hchildren t (mem_children.2 ⟨role, ht⟩)] at htc
      cases htc
  · cases hg : info.grouping with
    | none =>
      rw [hg, Option.getD_none] at hkey
      exact absurd hi (Nat.not_lt.2 hkey)
    | some gb =>
      rw [hg, Option.getD_some] at hkey
      exact ⟨gb, rfl, hkey⟩

/-- The way leads to a column that rows are folded into. -/
def Folds (root : PlanStep) (path : List Role) : Prop :=
  ∃ above parent place gb, path = above ++ [.column place] ∧ root.at? above = some parent ∧
    parent.grouping = some gb ∧ gb ≤ place

/-- The way leads into an offset or a limit. -/
def InBound (path : List Role) : Prop :=
  ∃ above role below, path = above ++ role :: below ∧ role.isBound = true ∧
    ∀ role ∈ below, role.isOperand = true

theorem Folds.cons (hs : step.input? role = some s) (h : s.Folds path) :
    step.Folds (role :: path) := by
  obtain ⟨above, parent, place, gb, rfl, ha, hg⟩ := h
  refine ⟨role :: above, parent, place, gb, rfl, ?_, hg⟩
  rw [at?, hs]
  exact ha

theorem InBound.cons (role : Role) (h : InBound path) : InBound (role :: path) := by
  obtain ⟨above, bound, below, rfl, h⟩ := h
  exact ⟨role :: above, bound, below, rfl, h⟩

/-- The step below is one that produces rows, or the expression that the rest of the way leads
through. -/
theorem folds_or_inBound (hr : step.producesRows = true) (h : step.check plan = .ok ())
    (ha : step.at? path = some a) (hagg : a.isAggregate = true) :
    step.Folds path ∨ InBound path := by
  induction path generalizing step with
  | nil =>
    cases ha
    cases a with
    | select | group | sort | receive => cases hagg
    | _ => cases hr
  | cons role path ih =>
    obtain ⟨s, hs, hsa⟩ := at?_cons ha
    have hcheck := (check_of_input? h hs).2
    cases hrows : s.producesRows with
    | true => exact (ih hrows hcheck hsa).imp (.cons hs) (.cons role)
    | false =>
      have hp := operands_of_at? hrows hcheck hsa
      cases role with
      | rows =>
        rw [producesRows_of_input? h hs] at hrows
        cases hrows
      | offset => exact .inr ⟨[], .offset, path, rfl, rfl, hp⟩
      | limit => exact .inr ⟨[], .limit, path, rfl, rfl, hp⟩
      | operand | column =>
        cases step with
        | select r source info columns offset limit =>
          first
          | cases hs
          | obtain ⟨rfl, gb, hg, hle⟩ := folded_of_column (columns_of_check h) hs hp hsa hagg
            exact .inl ⟨[], _, _, gb, rfl, rfl, hg, hle⟩
        | group | sort | receive => cases hs
        | _ => cases hr

end PlanStep

/-! ## Aggregates in what is evaluated -/

namespace Scalar

mutual

theorem hasAggregate_of_ofStep : ∀ (step : PlanStep) {s : Scalar}, ofStep step = .ok s →
    s.hasAggregate = step.containsAggregate
  | .const .., _, h | .varRef .., _, h | .externalVarRef .., _, h => by
    cases h
    rfl
  | .field r input name, _, h => by
    obtain ⟨s, hs, h⟩ := ok_of_bind h
    cases h
    rw [hasAggregate, PlanStep.containsAggregate, hasAggregate_of_ofStep input hs]
  | .arith r kind args text, _, h => by
    obtain ⟨symbols, -, h⟩ := ok_of_bind h
    simp only at h
    split at h
    · cases h
    · rename_i hlen
      obtain ⟨ss, hss, h⟩ := ok_of_bind h
      cases h
      obtain ⟨hl, ha⟩ := hasAggregate_of_ofSteps args hss
      rw [hasAggregate, PlanStep.containsAggregate, anyHasAggregate_zip, ha]
      simpa [hl] using hlen
  | .aggregate r func input, _, h => by
    obtain ⟨_, -, h⟩ := ok_of_bind h
    cases h
    rfl
  | .select .., _, h | .group .., _, h | .sort .., _, h | .receive .., _, h => by cases h

theorem hasAggregate_of_ofSteps : ∀ (steps : List PlanStep) {ss : List Scalar},
    ofStep.ofSteps steps = .ok ss → ss.length = steps.length ∧
      ss.any hasAggregate = PlanStep.containsAggregate.anyContainsAggregate steps
  | [], _, h => by
    cases h
    exact ⟨rfl, rfl⟩
  | step :: rest, _, h => by
    obtain ⟨s, hs, h⟩ := ok_of_bind h
    obtain ⟨ss, hss, h⟩ := ok_of_bind h
    cases h
    obtain ⟨hl, ha⟩ := hasAggregate_of_ofSteps rest hss
    rw [List.any_cons, hasAggregate_of_ofStep step hs, ha]
    exact ⟨congrArg (· + 1) hl, rfl⟩

end

end Scalar

namespace Column

theorem ofStep_scalar {step : PlanStep} {col : Column} (h : ofStep step = .ok col)
    (hstep : step.containsAggregate = false) :
    ∃ s, col = .scalar s ∧ Scalar.ofStep step = .ok s := by
  cases step with
  | aggregate => cases hstep
  | _ =>
    obtain ⟨s, hs, h⟩ := ok_of_bind h
    cases h
    exact ⟨s, rfl, hs⟩

theorem formula_of_plain {step : PlanStep} {col : Column} (h : ofStep step = .ok col)
    (hstep : step.containsAggregate = false) :
    ∃ s : Scalar, col.formula = .inl s ∧ s.hasAggregate = false := by
  obtain ⟨s, rfl, hs⟩ := ofStep_scalar h hstep
  exact ⟨s, rfl, (Scalar.hasAggregate_of_ofStep step hs).trans hstep⟩

theorem formula_of_aggregate {step : PlanStep} {col : Column} (h : ofStep step = .ok col)
    (hstep : step.isAggregate = true) (hc : ∀ s ∈ step.children, s.containsAggregate = false) :
    ∃ input : Option Scalar, col.formula = .inr input ∧ ∀ s ∈ input, s.hasAggregate = false := by
  cases step with
  | aggregate r func input =>
    cases input with
    | none =>
      obtain ⟨_, -, h⟩ := ok_of_bind h
      cases h
      exact ⟨none, rfl, fun _ hs => by cases hs⟩
    | some step =>
      obtain ⟨s, hs, h⟩ := ok_of_bind h
      cases h
      refine ⟨some s, rfl, fun _ hs' => ?_⟩
      cases hs'
      exact (Scalar.hasAggregate_of_ofStep step hs).trans (hc step (List.mem_singleton_self step))
  | _ => cases hstep

end Column

/-- What a select step evaluates is made of its columns, its offset and its limit. -/
inductive Compiles : PlanStep → Program → Prop
  | select {reg : Nat} {source : PlanStep} {info : SelectInfo} {columns : List PlanStep}
    {offset limit : Option PlanStep} {cols : List Column} {bounds : List Scalar}
    (hcols : List.Forall₂ (fun s col => Column.ofStep s = .ok col) columns cols)
    (hbounds : List.Forall₂ (fun s e => Scalar.ofStep s = .ok e)
      (offset.toList ++ limit.toList) bounds) :
    Compiles (.select reg source info columns offset limit)
      ⟨(cols.take (info.grouping.getD columns.length)).map Column.formula,
        (cols.drop (info.grouping.getD columns.length)).map Column.formula, bounds⟩

theorem forall_mem_right {α β : Type} {R : α → β → Prop} {p : β → Prop} {as : List α}
    {bs : List β} (h : List.Forall₂ R as bs) (hp : ∀ a ∈ as, ∀ b, R a b → p b) :
    ∀ b ∈ bs, p b := by
  induction h with
  | nil => exact List.forall_mem_nil _
  | cons hab _ ih =>
    obtain ⟨ha, has⟩ := List.forall_mem_cons.1 hp
    exact List.forall_mem_cons.2 ⟨ha _ hab, ih has⟩

namespace Compiles
variable {plan : Plan} {step : PlanStep} {p : Program}

theorem plain (hp : Compiles step p) (h : step.check plan = .ok ()) : p.Plain := by
  cases hp with
  | select hcols hbounds =>
    obtain ⟨hread, hfold⟩ := PlanStep.columns_of_check h
    refine ⟨List.forall_mem_map.2 ?_, List.forall_mem_map.2 ?_⟩
    · exact forall_mem_right (List.forall₂_take _ hcols) fun s hs col hcol =>
        Column.formula_of_plain hcol (hread s hs)
    · exact forall_mem_right (List.forall₂_drop _ hcols) fun s hs col hcol =>
        Column.formula_of_aggregate hcol (hfold s hs).1 (hfold s hs).2

theorem bounds (hp : Compiles step p) (h : ∀ b ∈ step.bounds, b.containsAggregate = false) :
    ∀ e ∈ p.bounds, e.hasAggregate = false := by
  cases hp with
  | select hcols hbounds =>
    exact forall_mem_right hbounds fun s hs e he =>
      (Scalar.hasAggregate_of_ofStep s he).trans (h s hs)

end Compiles

namespace Operator

theorem toList_of_ofBound {bound : Option PlanStep} {e : Option Scalar}
    (h : ofStep.ofBound bound = .ok e) :
    List.Forall₂ (fun s e => Scalar.ofStep s = .ok e) bound.toList e.toList := by
  cases bound with
  | none =>
    cases h
    exact .nil
  | some step =>
    obtain ⟨s, hs, h⟩ := ok_of_bind h
    cases h
    exact .cons hs .nil

theorem programs_of_ofStep {shards : List Int} : ∀ (step : PlanStep) {op : Operator},
    ofStep shards step = .ok op →
    ∀ p ∈ op.programs, ∃ path s, step.at? path = some s ∧ Compiles s p
  | .receive r info, _, h => by
    obtain ⟨s, -, h⟩ := ok_of_bind h
    cases h
    exact List.forall_mem_nil _
  | .group r input info, _, h => by
    simp only [ofStep] at h
    split at h
    · cases h
    · obtain ⟨op, ho, h⟩ := ok_of_bind h
      cases h
      intro p hp
      obtain ⟨path, s, hs, hc⟩ := programs_of_ofStep input ho p hp
      exact ⟨.rows :: path, s, hs, hc⟩
  | .sort r input specs countMemory, _, h => by
    simp only [ofStep] at h
    split at h
    · cases h
    · obtain ⟨op, ho, h⟩ := ok_of_bind h
      cases h
      intro p hp
      obtain ⟨path, s, hs, hc⟩ := programs_of_ofStep input ho p hp
      exact ⟨.rows :: path, s, hs, hc⟩
  | .select r source info columns offset limit, _, h => by
    obtain ⟨cols, hcols, h⟩ := ok_of_bind h
    obtain ⟨_, -, h⟩ := ok_of_bind h
    obtain ⟨op, hop, h⟩ := ok_of_bind h
    obtain ⟨o, ho, h⟩ := ok_of_bind h
    obtain ⟨l, hl, h⟩ := ok_of_bind h
    cases h
    have hcols := mapM_eq_ok_iff.1 hcols
    refine List.forall_mem_cons.2 ⟨⟨[], _, rfl, ?_⟩, fun p hp => ?_⟩
    · have hbounds := List.rel_append (toList_of_ofBound ho) (toList_of_ofBound hl)
      have hselect : Compiles (.select r source info columns offset limit) _ :=
        .select hcols hbounds
      rwa [hcols.length_eq] at hselect
    · obtain ⟨path, s, hs, hc⟩ := programs_of_ofStep source hop p hp
      exact ⟨.rows :: path, s, hs, hc⟩

end Operator

namespace PlanStep

/-- All aggregates are columns that rows are folded into. -/
def AggregatesFolded (root : PlanStep) : Prop :=
  ∀ path a, root.at? path = some a → a.isAggregate = true → root.Folds path

theorem aggregatesFolded_iff {plan : Plan} {root : PlanStep} (hr : root.producesRows = true)
    (h : root.check plan = .ok ()) :
    root.AggregatesFolded ↔
      ∀ path step, root.at? path = some step → ∀ b ∈ step.bounds, b.containsAggregate = false := by
  constructor
  · intro hf above step hs b hb
    by_contra hc
    obtain ⟨role, hrole, hi⟩ := mem_bounds.1 hb
    obtain ⟨below, a, hp, ha, hagg⟩ := exists_at?_of_containsAggregate b (by simpa using hc)
    have hat : root.at? (above ++ role :: below) = some a := by
      rw [at?_append, hs, Option.bind_some, at?, hi]
      exact ha
    -- the way ends with the bound or with an operand, and not with a column
    obtain ⟨above', _, place, _, he, -⟩ := hf _ a hat hagg
    have hlast := congrArg List.getLast? he
    rw [List.getLast?_append_of_ne_nil _ (List.cons_ne_nil role below), List.getLast?_concat]
      at hlast
    rcases List.mem_cons.1 (List.mem_of_getLast? hlast) with rfl | hmem
    · cases hrole
    · cases hp _ hmem
  · intro hb path a ha hagg
    refine (folds_or_inBound hr h ha hagg).resolve_right ?_
    rintro ⟨above, role, below, rfl, hrole, hp⟩
    rw [at?_append] at ha
    obtain ⟨step, hs, ha⟩ := Option.bind_eq_some_iff.1 ha
    obtain ⟨b, hi, ha⟩ := at?_cons ha
    have hc := containsAggregate_of_at? hp ha hagg
    rw [hb above step hs b (mem_bounds.2 ⟨role, hrole, hi⟩)] at hc
    cases hc

end PlanStep

namespace Plan
variable {plan : Plan}

/-- Under the rules an aggregate is a column that rows are folded into, unless it is in an offset or
a limit. So neither what is read off rows nor what aggregates are taken of ever has an aggregate in
it, and all aggregates are folded just if no offset and no limit has one. -/
theorem aggregates_folded_or_bound (h : plan.validate = .ok ()) :
    (∀ path a, plan.root.at? path = some a → a.isAggregate = true →
      plan.root.Folds path ∨ PlanStep.InBound path) ∧
    (plan.root.AggregatesFolded ↔ ∀ path step, plan.root.at? path = some step →
      ∀ b ∈ step.bounds, b.containsAggregate = false) ∧
    ∀ op op', Operator.ofStep plan.shards plan.root = .ok op → op.Becomes op' →
      ∀ p ∈ op'.programs, p.Plain ∧
        (plan.root.AggregatesFolded → ∀ e ∈ p.bounds, e.hasAggregate = false) := by
  obtain ⟨_, -, h⟩ := ok_of_bind h
  obtain ⟨_, hrows, h⟩ := ok_of_bind h
  obtain ⟨_, -, h⟩ := ok_of_bind h
  have hiff := PlanStep.aggregatesFolded_iff (require_eq_ok.1 hrows) h
  refine ⟨fun path a => PlanStep.folds_or_inBound (require_eq_ok.1 hrows) h, hiff, ?_⟩
  intro op op' hop hbecomes p hp
  rw [hbecomes.programs_eq] at hp
  obtain ⟨path, step, hs, hc⟩ := Operator.programs_of_ofStep _ hop p hp
  exact ⟨hc.plain (PlanStep.check_of_at? h hs), fun hf => hc.bounds (hiff.1 hf path step hs)⟩

/-- Rows are counted by a field. -/
def counting : Plan where
  root := .select 3 (.receive 0 ⟨.allPartitions, [], []⟩) ⟨"", ["k", "n"], some 1, false⟩
    [.field 1 (.varRef 0 "$row") "k", .aggregate 2 .countStar none] none none
  registers := 4

theorem aggregates_folded_or_bound_counting :
    counting.validate = .ok () ∧
      (counting.root.Folds [.column 1] ∨ PlanStep.InBound [.column 1]) ∧
      ∃ op, Operator.ofStep counting.shards counting.root = .ok op ∧
        ∀ p ∈ op.programs, p.Plain :=
  have h := @aggregates_folded_or_bound counting rfl
  ⟨rfl, h.1 [.column 1] _ rfl rfl, _, rfl, fun p hp => (h.2.2 _ _ rfl .start p hp).1⟩

/-- A count keeps the rules as a limit, where no row is counted and nothing is let through. -/
theorem validate_limitCount :
    let plan := selecting [.field 3 (.varRef 0 "$row") "k"] none
      (some (.aggregate 1 .countStar none))
    plan.validate = .ok () ∧ ¬plan.root.AggregatesFolded ∧
      ∃ s input, Operator.ofStep plan.shards plan.root = .ok (.select s input) ∧
        (∃ e ∈ s.program.bounds, e.hasAggregate = true) ∧
        ∀ config, (Selection.evalBound "LIMIT" s.limit (.ofConfig config plan.registers)).1 =
          .ok (some 0) := by
  refine ⟨rfl, fun hf => ?_, _, _, rfl, ⟨_, List.mem_singleton_self _, rfl⟩, fun _ => rfl⟩
  obtain ⟨above, _, place, _, he, -⟩ := hf [.limit] _ rfl rfl
  have hlast := congrArg List.getLast? he
  rw [List.getLast?_concat] at hlast
  cases hlast

end Plan
end ShardQuery
