import ShardQuery.Operator.Column

/-!
What marks an expression has makes no difference once it is reset: it is evaluated as one that has
none.
-/

namespace ShardQuery

namespace Marks

mutual

/-- No part has been evaluated. -/
def Clear : Marks → Prop
  | .node spent parts => spent = false ∧ AllClear parts

def AllClear : List Marks → Prop
  | [] => True
  | m :: rest => m.Clear ∧ AllClear rest

end

mutual

theorem reset_clear : ∀ m : Marks, m.reset.Clear
  | .node _ parts => ⟨rfl, resetAll_clear parts⟩

theorem resetAll_clear : ∀ parts : List Marks, AllClear (resetAll parts)
  | [] => trivial
  | m :: rest => ⟨reset_clear m, resetAll_clear rest⟩

end

/-- Where nothing is said of the first part, it has not been evaluated. -/
theorem AllClear.headD {parts : List Marks} (h : AllClear parts) : (parts.headD .clear).Clear := by
  cases parts with
  | nil => exact ⟨rfl, trivial⟩
  | cons m rest => exact h.1

end Marks

namespace Scalar
variable {externals : List (Option Value)}

/-- What is left of an evaluation without the marks. -/
def unmarked {α β : Type} (x : α × β × List Value) : α × List Value := (x.1, x.2.2)

mutual

/-- An expression of which no part is marked is evaluated as if there were no marks. The marks of
arguments do not even matter, as each is reset before. -/
theorem unmarked_next (s : Scalar) {m : Marks} (h : m.Clear) (regs : List Value) :
    unmarked (s.next externals m regs) = s.eval externals regs := by
  obtain ⟨spent, parts⟩ := m
  obtain ⟨rfl, hparts⟩ := h
  match s with
  | .const r v | .var r | .aggregate r func => rfl
  | .external r name id =>
    unfold next eval
    cases boundVariable externals id name <;> rfl
  | .field r input name =>
    have hi := unmarked_next input hparts.headD regs
    unfold next eval
    rw [← hi]
    rcases input.next externals (parts.headD .clear) regs with ⟨_ | _ | _, marks, regs'⟩
    · rfl
    · rfl
    · simp only [unmarked]
      rcases fieldOf (readRegister regs' input.reg) name with _ | _ | _ <;> rfl
  | .arith r kind args =>
    have ha := unmarked_nextArgs args parts kind.identity regs
    unfold next eval
    rw [← ha]
    rcases nextArgs externals args parts kind.identity regs with ⟨_ | _ | _, marks, regs'⟩ <;> rfl

theorem unmarked_nextArgs (args : List (ArithOp × Scalar)) (parts : List Marks) (sum : Value)
    (regs : List Value) :
    unmarked (nextArgs externals args parts sum regs) = evalArgs externals args sum regs := by
  match args with
  | [] => rfl
  | (op, arg) :: rest =>
    have hi := unmarked_next arg (parts.headD .clear).reset_clear regs
    unfold nextArgs evalArgs
    rw [← hi]
    rcases arg.next externals (parts.headD .clear).reset regs with ⟨_ | _ | _, marks, regs'⟩
    · rfl
    · rfl
    · simp only [unmarked]
      rcases join op sum (readRegister regs' arg.reg) with _ | _ | v
      · rfl
      · rfl
      · simp only
        split
        · rfl
        · exact unmarked_nextArgs rest parts.tail v regs'

end

end Scalar

namespace Evaluator

/-- Once it is reset, an evaluator does with the registers what its column does. -/
theorem next_reset (e : Evaluator) (c : Control) :
    (e.reset.next c).1 = (e.column.run c).1 ∧ (e.reset.next c).2.2 = (e.column.run c).2 := by
  obtain ⟨column, marks⟩ := e
  cases column with
  | scalar s =>
    have h := @Scalar.unmarked_next c.externals s _ marks.reset_clear c.registers
    simp only [reset, next, Column.run, Scalar.run, ← h]
    exact ⟨rfl, rfl⟩
  | aggregate r input acc =>
    obtain ⟨spent, parts⟩ := marks
    exact ⟨rfl, rfl⟩

end Evaluator
end ShardQuery
