import ShardQuery.Proofs.Operator.Faults
import ShardQuery.Proofs.Operator.Queueing
import ShardQuery.Proofs.Operator.Registers

/-!
What the operators of a query name is there: the registers, and values for the variables. So it
makes no difference what registers there are beyond those, and of the defects that operators can
report only those are left that the rows are to blame for.
-/

namespace ShardQuery

/-! ## Names and what they stand for -/

/-- How many registers and variables there are. -/
structure Scope where
  registers : Nat
  externals : Nat

/-- All variables have values. -/
def Scope.Bound (σ : Scope) (externals : List (Option Value)) : Prop :=
  ∀ id < σ.externals, ∃ v, externals[id]? = some (some v)

variable {σ : Scope}

namespace Scalar

mutual

/-- All registers and variables that the expression names are there. -/
def Fits (σ : Scope) : Scalar → Prop
  | .const r _ | .var r | .aggregate r _ => r < σ.registers
  | .external r _ id => r < σ.registers ∧ id < σ.externals
  | .field r input _ => r < σ.registers ∧ input.Fits σ
  | .arith r _ args => r < σ.registers ∧ FitArgs σ args

def FitArgs (σ : Scope) : List (ArithOp × Scalar) → Prop
  | [] => True
  | (_, arg) :: rest => arg.Fits σ ∧ FitArgs σ rest

end

theorem Fits.reg_lt {s : Scalar} (h : s.Fits σ) : s.reg < σ.registers := by
  cases s with
  | const | var | aggregate => exact h
  | external | field | arith => exact h.1

end Scalar

namespace Column

/-- All that the column names is there. -/
def Fits (σ : Scope) : Column → Prop
  | .scalar s => s.Fits σ
  | .aggregate r input _ => r < σ.registers ∧ ∀ s ∈ input, s.Fits σ

/-- Rows can be folded into the column. -/
def Folds (σ : Scope) (col : Column) : Prop := col.Fits σ ∧ col.isAggregate = true

theorem Fits.reg_lt {col : Column} (h : col.Fits σ) : col.reg < σ.registers := by
  cases col with
  | scalar s => exact Scalar.Fits.reg_lt h
  | aggregate => exact h.1

end Column

/-- All that a select step names is there, and rows are folded into aggregates only. -/
structure Selection.Fits (σ : Scope) (s : Selection) : Prop where
  reg : s.reg < σ.registers
  sourceReg : s.sourceReg < σ.registers
  columns : ∀ col ∈ s.columns, col.Fits σ
  aggregates : ∀ col ∈ s.aggregates, col.Folds σ
  offset : ∀ e ∈ s.offset, e.Fits σ
  limit : ∀ e ∈ s.limit, e.Fits σ

/-- The registers of a group step are there, and so are the groups of the keys that wait. -/
structure Grouping.Fits (σ : Scope) (g : Grouping) : Prop where
  reg : g.reg < σ.registers
  inputReg : g.inputReg < σ.registers
  queued : g.Queued

structure Sorting.Fits (σ : Scope) (s : Sorting) : Prop where
  reg : s.reg < σ.registers
  inputReg : s.inputReg < σ.registers

/-- All that the operators name is there. -/
def Operator.Fits (σ : Scope) : Operator → Prop
  | .scan s => s.reg < σ.registers
  | .select s input => s.Fits σ ∧ input.Fits σ
  | .group g input => g.Fits σ ∧ input.Fits σ
  | .sort s input => s.Fits σ ∧ input.Fits σ

namespace Control
variable {c : Control} {r : Nat}

/-- There are as many registers, and all variables have values. -/
def Offers (σ : Scope) (c : Control) : Prop := c.size = σ.registers ∧ σ.Bound c.externals

/-- The control with more registers, behind its own. -/
def padded (extra : List Value) (c : Control) : Control :=
  { c with registers := c.registers ++ extra }

theorem needsContinuation_padded (c : Control) (extra : List Value) :
    (c.padded extra).needsContinuation = c.needsContinuation := rfl

theorem fetchDone_padded (c : Control) (extra : List Value) :
    (c.padded extra).fetchDone = c.fetchDone := rfl

theorem reg_padded (extra : List Value) (hc : c.Offers σ) (hr : r < σ.registers) :
    (c.padded extra).reg r = c.reg r := by
  have hr : r < c.registers.length := Nat.lt_of_lt_of_eq hr hc.1.symm
  simp [reg, padded, readRegister, List.getElem?_append_left hr]

theorem setReg_padded (extra : List Value) (hc : c.Offers σ) (hr : r < σ.registers) (v : Value) :
    (c.padded extra).setReg r v = (c.setReg r v).padded extra := by
  have hr : r < c.registers.length := Nat.lt_of_lt_of_eq hr hc.1.symm
  simp [setReg, padded, List.set_append_left _ _ hr]

theorem Offers.setReg (hc : c.Offers σ) (r : Nat) (v : Value) : (c.setReg r v).Offers σ :=
  ⟨(c.setReg_size r v).trans hc.1, hc.2⟩

end Control

/-! ## Failures -/

/-- A defect that the rows are to blame for. -/
inductive DataDefect : QueryError → Prop
  | field (name : String) {v : Value} (h : v.record? = none) :
    DataDefect (.defect s!"field step {name} applied to a {v.typeName} value")
  | groupInput {v : Value} (h : v.record? = none) :
    DataDefect (.defect s!"group input must be a record, got {v.typeName}")
  | duplicateInput {v : Value} (h : v.record? = none) :
    DataDefect (.defect s!"duplicate elimination needs records, got {v.typeName}")

/-- An error that an operator can raise if all it names is there. -/
def Lapse (e : QueryError) : Prop := Setback e ∨ DataDefect e

theorem Raises.lapse {τ : Type} [Fallible τ] {x : τ} (h : Raises Setback x) : Raises Lapse x :=
  h.mono .inl

/-! ## Confined actions -/

/-- Parts of results that may name something. -/
class Scoped (τ : Type) where
  fits : Scope → τ → Prop

instance : Scoped Control := ⟨Control.Offers⟩
instance : Scoped Column := ⟨Column.Folds⟩
instance : Scoped Selection := ⟨Selection.Fits⟩
instance : Scoped Grouping := ⟨Grouping.Fits⟩
instance : Scoped Sorting := ⟨Sorting.Fits⟩
instance : Scoped Scan := ⟨fun σ s => s.reg < σ.registers⟩
instance : Scoped Operator := ⟨Operator.Fits⟩
instance : Scoped (List Column) := ⟨fun σ cols => ∀ col ∈ cols, col.Folds σ⟩
instance : Scoped Bool := ⟨fun _ _ => True⟩
instance : Scoped Nat := ⟨fun _ _ => True⟩
instance : Scoped (Option Nat) := ⟨fun _ _ => True⟩
instance : Scoped Value := ⟨fun _ _ => True⟩
instance : Scoped (List Value) := ⟨fun _ _ => True⟩
instance : Scoped (List (String × Value)) := ⟨fun _ _ => True⟩
instance : Scoped Bounds := ⟨fun _ _ => True⟩
instance : Scoped (Option QueryError) := ⟨fun _ _ => True⟩
instance {α β : Type} [Scoped α] [Scoped β] : Scoped (α × β) :=
  ⟨fun σ x => Scoped.fits σ x.1 ∧ Scoped.fits σ x.2⟩
instance {α β : Type} [Scoped α] [Scoped β] : Scoped (α ⊕ β) :=
  ⟨fun σ x => x.elim (Scoped.fits σ) (Scoped.fits σ)⟩
instance {α : Type} [Scoped α] : Scoped (Except QueryError α) :=
  ⟨fun σ x => match x with
    | .ok a => Scoped.fits σ a
    | .error _ => True⟩
instance {α : Type} [Scoped α] : Scoped (Step α) :=
  ⟨fun σ s => Scoped.fits σ s.state ∧ s.control.Offers σ⟩

instance {α β : Type} : Fallible (Step α ⊕ β) :=
  ⟨fun x => x.elim Fallible.failure fun _ => none⟩

/-- What an action made of a control, and of the same control with more registers. -/
structure Inside (E : QueryError → Prop) (σ : Scope) (extra : List Value) {τ : Type} [Carries τ]
    [Fallible τ] [Scoped τ] (x y : τ) : Prop where
  padded : y = Carries.onControl (·.padded extra) x
  fits : Scoped.fits σ x
  raises : Raises E x

/-- An action that stays within what there is, and fails in certain ways only. -/
def Confined (E : QueryError → Prop) (σ : Scope) {τ : Type} [Carries τ] [Fallible τ] [Scoped τ]
    (f : Control → τ) : Prop :=
  ∀ c extra, c.Offers σ → Inside E σ extra (f c) (f (c.padded extra))

theorem Control.charge_inside (n : Nat) {c : Control} (extra : List Value) (hc : c.Offers σ) :
    Inside Lapse σ extra (c.charge n) ((c.padded extra).charge n) := by
  have hr := (c.charge_setback n).lapse
  revert hr
  simp only [charge, padded]
  split <;> exact fun hr => ⟨rfl, ⟨trivial, hc⟩, hr⟩

/-! ## Expressions -/

namespace Scalar

theorem fieldOf_lapse (v : Value) (name : String) : Raises Lapse (fieldOf v name) := by
  unfold fieldOf
  split
  · exact .none rfl
  · exact .none rfl
  · exact .none rfl
  · exact .none rfl
  · rename_i hmap _ _ _
    refine .of_fault (.inr (.field name ?_)) rfl
    cases v with
    | map fields => exact (hmap fields rfl).elim
    | _ => rfl

theorem join_setback (op : ArithOp) (sum operand : Value) :
    Raises Setback (join op sum operand) := by
  unfold join
  split
  · exact .none rfl
  · exact .none rfl
  · exact .none rfl
  · exact (op.apply_setback sum operand).map some

variable {externals : List (Option Value)} {extra : List Value}

theorem eval_length (externals : List (Option Value)) (s : Scalar) (regs : List Value) :
    (s.eval externals regs).2.length = regs.length := (s.eval_frame regs).length

theorem evalArgs_length (externals : List (Option Value)) (args : List (ArithOp × Scalar))
    (sum : Value) (regs : List Value) :
    (evalArgs externals args sum regs).2.length = regs.length :=
  (evalArgs_frame args sum regs).length

/-- An evaluation, and the same one with more registers. -/
structure Confines (extra : List Value) {α : Type} [Fallible α] (x y : α × List Value) : Prop where
  padded : y = (x.1, x.2 ++ extra)
  raises : Raises Lapse x.1

theorem confines_set {regs : List Value} {r : Nat} {α : Type} [Fallible α] {a : α}
    (ha : Raises Lapse a) (hr : r < regs.length) (v : Value) :
    Confines extra (a, regs.set r v) (a, (regs ++ extra).set r v) :=
  ⟨by rw [List.set_append_left _ _ hr], ha⟩

theorem readRegister_append {regs : List Value} {r : Nat} (hr : r < regs.length)
    (extra : List Value) :
    readRegister (regs ++ extra) r = readRegister regs r := by
  simp [readRegister, List.getElem?_append_left hr]

mutual

theorem eval_confines (hb : σ.Bound externals) (s : Scalar) (h : s.Fits σ) {regs : List Value}
    (hl : regs.length = σ.registers) :
    Confines extra (s.eval externals regs) (s.eval externals (regs ++ extra)) := by
  match s with
  | .const r v | .aggregate r func =>
    have h : r < regs.length := hl.symm ▸ h
    exact confines_set (.none rfl) h _
  | .var r => exact ⟨rfl, .none rfl⟩
  | .external r name id =>
    obtain ⟨hr, hid⟩ := h
    obtain ⟨v, hv⟩ := hb id hid
    simp only [eval, boundVariable, hv]
    exact confines_set (.none rfl) (hl.symm ▸ hr) v
  | .field r input name =>
    obtain ⟨hr, hi⟩ := h
    obtain ⟨he, hf⟩ := eval_confines hb input hi hl
    have hlen := (eval_length externals input regs).trans hl
    simp only [eval, he]
    generalize input.eval externals regs = x at hf hlen ⊢
    rcases x with ⟨e | _ | _, regs'⟩
    · exact ⟨rfl, hf⟩
    · exact ⟨rfl, .none rfl⟩
    · have hread := readRegister_append (hlen.symm ▸ hi.reg_lt) extra
      have hfield := fieldOf_lapse (readRegister regs' input.reg) name
      simp only [hread]
      generalize fieldOf (readRegister regs' input.reg) name = y at hfield ⊢
      rcases y with e | _ | v
      · exact ⟨rfl, hfield⟩
      · exact ⟨rfl, .none rfl⟩
      · exact confines_set (.none rfl) (hlen.symm ▸ hr) v
  | .arith r kind args =>
    obtain ⟨hr, ha⟩ := h
    obtain ⟨he, hf⟩ := evalArgs_confines hb args ha kind.identity hl
    have hlen := (evalArgs_length externals args kind.identity regs).trans hl
    simp only [eval, he]
    generalize evalArgs externals args kind.identity regs = x at hf hlen ⊢
    rcases x with ⟨e | _ | v, regs'⟩
    · exact ⟨rfl, hf⟩
    · exact ⟨rfl, .none rfl⟩
    · exact confines_set (.none rfl) (hlen.symm ▸ hr) v

theorem evalArgs_confines (hb : σ.Bound externals) (args : List (ArithOp × Scalar))
    (h : FitArgs σ args) (sum : Value) {regs : List Value} (hl : regs.length = σ.registers) :
    Confines extra (evalArgs externals args sum regs)
      (evalArgs externals args sum (regs ++ extra)) := by
  match args with
  | [] => exact ⟨rfl, .none rfl⟩
  | (op, arg) :: rest =>
    obtain ⟨ha, hrest⟩ := h
    obtain ⟨he, hf⟩ := eval_confines hb arg ha hl
    have hlen := (eval_length externals arg regs).trans hl
    simp only [evalArgs, he]
    generalize arg.eval externals regs = x at hf hlen ⊢
    rcases x with ⟨e | _ | _, regs'⟩
    · exact ⟨rfl, hf⟩
    · exact ⟨rfl, .none rfl⟩
    · have hread := readRegister_append (hlen.symm ▸ ha.reg_lt) extra
      have hjoin := (join_setback op sum (readRegister regs' arg.reg)).lapse
      simp only [hread]
      generalize join op sum (readRegister regs' arg.reg) = y at hjoin ⊢
      rcases y with e | _ | v
      · exact ⟨rfl, hjoin⟩
      · exact ⟨rfl, .none rfl⟩
      · simp only
        split
        · exact ⟨rfl, .none rfl⟩
        · exact evalArgs_confines hb rest hrest v hlen

end

theorem run_confined {s : Scalar} (h : s.Fits σ) : Confined Lapse σ s.run := by
  intro c extra hc
  obtain ⟨he, hf⟩ := @eval_confines σ c.externals extra hc.2 s h _ hc.1
  refine ⟨?_, ⟨?_, (s.run_size c).trans hc.1, hc.2⟩, hf⟩
  · simp only [run, Control.padded, he]
    rfl
  · cases (s.run c).1 <;> trivial

end Scalar

/-! ## Columns -/

namespace Column
variable {col : Column}

theorem run_confined (h : col.Fits σ) : Confined Lapse σ col.run := by
  cases col with
  | scalar s => exact Scalar.run_confined h
  | aggregate r input acc =>
    intro c extra hc
    simp only [run, Control.setReg_padded extra hc h.1]
    exact ⟨rfl, ⟨trivial, hc.setReg r _⟩, .none rfl⟩

theorem read_confined (h : col.Fits σ) : Confined Lapse σ col.read := by
  intro c extra hc
  obtain ⟨hr, hf, he⟩ := run_confined h c extra hc
  simp only [read, hr]
  generalize col.run c = x at hf he ⊢
  rcases x with ⟨e | _ | _, d⟩
  · exact ⟨rfl, ⟨trivial, hf.2⟩, he⟩
  · exact ⟨rfl, ⟨trivial, hf.2⟩, .none rfl⟩
  · simp only [Carries.onControl, Control.reg_padded extra hf.2 h.reg_lt]
    exact ⟨rfl, ⟨trivial, hf.2⟩, .none rfl⟩

theorem inputValue_confined {input : Option Scalar} (h : ∀ s ∈ input, s.Fits σ) :
    Confined Lapse σ (inputValue input) := by
  intro c extra hc
  cases input with
  | none => exact ⟨rfl, ⟨trivial, hc⟩, .none rfl⟩
  | some s =>
    have hs := h s rfl
    obtain ⟨hr, hf, he⟩ := Scalar.run_confined hs c extra hc
    simp only [inputValue, hr]
    generalize s.run c = x at hf he ⊢
    rcases x with ⟨e | _ | _, d⟩
    · exact ⟨rfl, ⟨trivial, hf.2⟩, he⟩
    · exact ⟨rfl, ⟨trivial, hf.2⟩, .none rfl⟩
    · simp only [Carries.onControl, Control.reg_padded extra hf.2 hs.reg_lt]
      exact ⟨rfl, ⟨trivial, hf.2⟩, .none rfl⟩

theorem fold_confined (h : col.Folds σ) : Confined Lapse σ col.fold := by
  intro c extra hc
  cases col with
  | scalar s => cases h.2
  | aggregate r input acc =>
    obtain ⟨hr, hf, he⟩ := inputValue_confined h.1.2 c extra hc
    simp only [fold, hr]
    generalize inputValue input c = x at hf he ⊢
    rcases x with ⟨e | v, d⟩
    · exact ⟨rfl, ⟨trivial, hf.2⟩, he⟩
    · have ha := (acc.aggregate_setback v).lapse
      simp only [Carries.onControl]
      generalize acc.aggregate v = y at ha ⊢
      rcases y with e | p
      · exact ⟨rfl, ⟨trivial, hf.2⟩, ha⟩
      · exact ⟨rfl, ⟨⟨trivial, h.1, rfl⟩, hf.2⟩, .none rfl⟩

/-- An aggregate has a result, and goes on as an aggregate. -/
theorem take_folds (h : col.Folds σ) : ∃ v n col', col.take = .ok (v, n, col') ∧ col'.Folds σ := by
  cases col with
  | scalar s => cases h.2
  | aggregate r input acc => exact ⟨_, _, _, rfl, h.1, rfl⟩

end Column
end ShardQuery
