import ShardQuery.Proofs.Operator.Selecting

/-!
What the operators of a query evaluate is laid down when they are made. Rows, batches and the end of
the query change what has been folded into aggregates, but none of the expressions.
-/

namespace ShardQuery

/-- What a select step evaluates: what is read off each row, what rows are folded into, and the
offset and the limit. -/
structure Program where
  columns : List (Scalar ⊕ Option Scalar)
  aggregates : List (Scalar ⊕ Option Scalar)
  bounds : List Scalar

namespace Selection
variable {s t : Selection}

def program (s : Selection) : Program :=
  ⟨s.columns.map Column.formula, s.aggregates.map Column.formula, s.offset.toList ++ s.limit.toList⟩

theorem Continues.program_eq (h : s.Continues t) (ho : t.offset = s.offset)
    (hl : t.limit = s.limit) : t.program = s.program := by
  simp only [program, h.columns, h.formulas, ho, hl]

section
variable (s : Selection) (b : Bounds) (c : Control)

theorem finishGroup_program (key : List Value) :
    (s.finishGroup key c).2.1.program = s.program := by
  have h := s.finishGroup_continues c key
  unfold finishGroup at h ⊢
  cases ht : takeResults (s.names.drop key.length) s.aggregates with
  | error e => rfl
  | ok x =>
    rw [ht] at h
    exact h.program_eq rfl rfl

theorem emit_program (row : Value) : (s.emit b row c).state.program = s.program := by
  unfold emit
  split <;> rfl

/-- The window is not changed by what is made of a row, so neither are offset and limit. -/
theorem made_program : (s.made c).2.1.program = s.program := by
  have hw := s.made_windowed c ⟨s.offset, s.limit, s.bounds, s.skipped, s.produced, s.finished⟩
  have hs : (s.made c).2.1 = (s.made c).2.1.windowed
      ⟨s.offset, s.limit, s.bounds, s.skipped, s.produced, s.finished⟩ :=
    congrArg (·.2.1) hw
  exact (s.made_continues c).program_eq (congrArg (·.offset) hs) (congrArg (·.limit) hs)

theorem pass_program (m : Made) : (pass b m).state.program = m.2.1.program := by
  rcases m with ⟨_ | _ | row, t, d⟩
  · rfl
  · rfl
  · exact t.emit_program b d row

theorem endGroups_program (gb : Nat) : (s.endGroups b gb c).state.program = s.program := by
  unfold endGroups
  split
  · rename_i current _
    have h := finishGroup_program { s with current := none } c current
    split <;> rename_i hf <;> rw [hf] at h
    · exact h
    · rw [emit_program]
      exact h
  · split
    · have h := s.finishGroup_program c []
      split <;> rename_i hf <;> rw [hf] at h
      · exact h
      · rw [emit_program]
        exact h
    · rfl

theorem onInput_program (signal : Signal) :
    (s.onInput b signal c).state.program = s.program := by
  cases signal with
  | row => rw [onInput_row, pass_program, made_program]
  | dry =>
    unfold onInput
    simp only
    split
    · rfl
    · split
      · rfl
      · exact s.endGroups_program b c _
  | more | request | fail => rfl

end

theorem begin_inl_program {c : Control} {r : Step Selection} (h : s.begin c = .inl r) :
    r.state.program = s.program := by
  unfold begin at h
  split at h
  · cases h
    rfl
  · split at h
    · cases h
      rfl
    · simp only at h
      split at h <;> cases h
      rfl

theorem begin_inr_program {c d : Control} {b : Bounds} (h : s.begin c = .inr (b, t, d)) :
    t.program = s.program := by
  unfold begin at h
  split at h
  · cases h
  · split at h
    · cases h
    · simp only at h
      split at h <;> cases h
      rfl

end Selection

namespace Operator
variable (op : Operator) (c : Control)

/-- What each of the select steps evaluates. -/
def programs : Operator → List Program
  | .scan _ => []
  | .select s input => s.program :: input.programs
  | .group _ input | .sort _ input => input.programs

theorem step_programs : (op.step c).state.programs = op.programs := by
  induction op generalizing c with
  | scan s => rfl
  | select s input ih =>
    unfold step
    split
    · rename_i hb
      exact congrArg (· :: input.programs) (Selection.begin_inl_program hb)
    · rename_i b t d hb
      have ht := t.onInput_program b (input.step d).control (input.step d).signal
      simp only [Step.map, programs, ih, ht, Selection.begin_inr_program hb]
  | group g input ih =>
    unfold step
    split
    · rfl
    · rfl
    · exact ih c
  | sort s input ih =>
    unfold step
    split
    · rfl
    · exact ih c

theorem deliver_programs (batch : Batch) : (op.deliver c batch).2.1.programs = op.programs := by
  induction op with
  | scan s => rfl
  | select s input ih => exact congrArg (s.program :: ·) ih
  | group g input ih | sort s input ih => exact ih

theorem close_programs : (op.close c).1.programs = op.programs := by
  induction op generalizing c with
  | scan s => rfl
  | select s input ih => exact congrArg (s.program :: ·) (ih _)
  | group g input ih | sort s input ih => exact ih _

/-- What can become of the operators of a query. -/
inductive Becomes (op : Operator) : Operator → Prop
  | start : Becomes op op
  | step {op' : Operator} (h : Becomes op op') (c : Control) : Becomes op (op'.step c).state
  | deliver {op' : Operator} (h : Becomes op op') (c : Control) (batch : Batch) :
    Becomes op (op'.deliver c batch).2.1
  | close {op' : Operator} (h : Becomes op op') (c : Control) : Becomes op (op'.close c).1

variable {op}

theorem Becomes.programs_eq {op' : Operator} (h : op.Becomes op') :
    op'.programs = op.programs := by
  induction h with
  | start => rfl
  | step _ c ih => rw [step_programs, ih]
  | deliver _ c batch ih => rw [deliver_programs, ih]
  | close _ c ih => rw [close_programs, ih]

end Operator

/-! ## Aggregates among the expressions -/

namespace Scalar

mutual

/-- Whether the value of an aggregate that no row is folded into is a part of the expression. -/
def hasAggregate : Scalar → Bool
  | .const .. | .var _ | .external .. => false
  | .field _ input _ => input.hasAggregate
  | .arith _ _ args => anyHasAggregate args
  | .aggregate .. => true

def anyHasAggregate : List (ArithOp × Scalar) → Bool
  | [] => false
  | (_, arg) :: rest => arg.hasAggregate || anyHasAggregate rest

end

theorem anyHasAggregate_zip {symbols : List ArithOp} {args : List Scalar}
    (h : symbols.length = args.length) :
    anyHasAggregate (symbols.zip args) = args.any hasAggregate := by
  induction symbols generalizing args with
  | nil =>
    rw [List.eq_nil_of_length_eq_zero h.symm]
    rfl
  | cons op rest ih =>
    cases args with
    | nil => cases h
    | cons arg args =>
      rw [List.zip_cons_cons, anyHasAggregate, List.any_cons, ih (by simpa using h)]

end Scalar

/-- Rows are folded into all aggregates among the columns. -/
structure Program.Plain (p : Program) : Prop where
  columns : ∀ f ∈ p.columns, ∃ s : Scalar, f = .inl s ∧ s.hasAggregate = false
  aggregates : ∀ f ∈ p.aggregates, ∃ input : Option Scalar,
    f = .inr input ∧ ∀ s ∈ input, s.hasAggregate = false

end ShardQuery
