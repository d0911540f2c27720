import ShardQuery.Proofs.Operator.Marks
import ShardQuery.Proofs.Operator.Registers
import ShardQuery.Proofs.Value.WholeNumbers

/-!
Arithmetic steps on whole numbers. The arguments are joined as mathematical integers are, up to the
first operator that refuses, and a result that is once wide stays wide.
-/

namespace ShardQuery

/-- WholeNumber numbers, each with the operator that joins it to what came before. -/
abbrev Terms := List (ArithOp × WholeNumber)

namespace Terms

/-- The exact result of joining the terms to a number from left to right. -/
def exact (start : Int) (terms : Terms) : Int :=
  terms.foldl (fun m t => t.1.onInts m t.2.number) start

/-- All operators have a property, together with the exact result before them and their operand. -/
def Throughout (P : Int → ArithOp → WholeNumber → Prop) (start : Int) (terms : Terms) : Prop :=
  ∀ before op b, before ++ [(op, b)] <+: terms → P (exact start before) op b

/-- No operator refuses. -/
def Sound : Int → Terms → Prop := Throughout fun m op b => op.offence m b.number = none

/-- All numbers are narrow, and so are all exact results on the way. -/
def Narrow : Int → Terms → Prop :=
  Throughout fun m op b => b.narrow = true ∧ fitsInteger (op.onInts m b.number) = true

/-- The first operator that refuses does so for this reason. -/
def Fails (start : Int) (terms : Terms) (e : QueryError) : Prop :=
  ∃ before op b, before ++ [(op, b)] <+: terms ∧ Sound start before ∧
    op.offence (exact start before) b.number = some e

variable {P : Int → ArithOp → WholeNumber → Prop} {start : Int} {op : ArithOp} {b : WholeNumber}
  {rest terms : Terms} {e : QueryError}

theorem throughout_nil : Throughout P start [] := by
  intro before op b h
  exact (List.append_ne_nil_of_right_ne_nil before (List.cons_ne_nil _ _)
    (List.prefix_nil.1 h)).elim

theorem throughout_cons :
    Throughout P start ((op, b) :: rest) ↔
      P start op b ∧ Throughout P (op.onInts start b.number) rest := by
  constructor
  · intro h
    refine ⟨h [] op b (List.prefix_append [(op, b)] rest), fun before op' b' hp => ?_⟩
    exact h ((op, b) :: before) op' b' (List.cons_prefix_cons.2 ⟨rfl, hp⟩)
  · rintro ⟨hhead, htail⟩ before op' b' hp
    cases before with
    | nil =>
      obtain ⟨he, -⟩ := List.cons_prefix_cons.1 hp
      cases he
      exact hhead
    | cons t before =>
      obtain ⟨rfl, hrest⟩ := List.cons_prefix_cons.1 hp
      exact htail before op' b' hrest

instance [∀ m op b, Decidable (P m op b)] :
    ∀ (start : Int) (terms : Terms), Decidable (Throughout P start terms)
  | _, [] => .isTrue throughout_nil
  | start, (op, b) :: rest =>
    have := instDecidableThroughout (op.onInts start b.number) rest
    decidable_of_iff' _ throughout_cons

instance (start : Int) (terms : Terms) : Decidable (Sound start terms) :=
  inferInstanceAs (Decidable (Throughout _ start terms))

instance (start : Int) (terms : Terms) : Decidable (Narrow start terms) :=
  inferInstanceAs (Decidable (Throughout _ start terms))

theorem not_fails_nil : ¬Fails start [] e := fun ⟨before, op, b, hp, _⟩ =>
  @throughout_nil (fun _ _ _ => False) start before op b hp

theorem fails_cons :
    Fails start ((op, b) :: rest) e ↔ op.offence start b.number = some e ∨
      op.offence start b.number = none ∧ Fails (op.onInts start b.number) rest e := by
  constructor
  · rintro ⟨before, op', b', hp, hsound, he⟩
    cases before with
    | nil =>
      obtain ⟨heq, -⟩ := List.cons_prefix_cons.1 hp
      cases heq
      exact .inl he
    | cons t before =>
      obtain ⟨rfl, hrest⟩ := List.cons_prefix_cons.1 hp
      obtain ⟨hhead, hsound⟩ := throughout_cons.1 hsound
      exact .inr ⟨hhead, before, op', b', hrest, hsound, he⟩
  · rintro (he | ⟨hhead, before, op', b', hp, hsound, he⟩)
    · exact ⟨[], op, b, List.prefix_append [(op, b)] rest, throughout_nil, he⟩
    · exact ⟨(op, b) :: before, op', b', List.cons_prefix_cons.2 ⟨rfl, hp⟩,
        throughout_cons.2 ⟨hhead, hsound⟩, he⟩

theorem sound_or_fails (start : Int) (terms : Terms) :
    Sound start terms ∨ ∃ e, Fails start terms e := by
  induction terms generalizing start with
  | nil => exact .inl throughout_nil
  | cons t rest ih =>
    obtain ⟨op, b⟩ := t
    cases he : op.offence start b.number with
    | some e => exact .inr ⟨e, fails_cons.2 (.inl he)⟩
    | none =>
      rcases ih (op.onInts start b.number) with hsound | ⟨e, hfails⟩
      · exact .inl (throughout_cons.2 ⟨he, hsound⟩)
      · exact .inr ⟨e, fails_cons.2 (.inr ⟨he, hfails⟩)⟩

end Terms

namespace WholeNumber

/-- Joins terms to a number from left to right. -/
def joinAll (a : WholeNumber) (terms : Terms) : Except QueryError WholeNumber :=
  terms.foldlM (fun a t => t.1.join a t.2) a

variable {a : WholeNumber} {terms : Terms} {e : QueryError}

theorem joinAll_cons (a : WholeNumber) (op : ArithOp) (b : WholeNumber) (rest : Terms) :
    a.joinAll ((op, b) :: rest) = (op.join a b).bind (·.joinAll rest) := List.foldlM_cons

theorem joinAll_eq_error : a.joinAll terms = .error e ↔ Terms.Fails a.number terms e := by
  induction terms generalizing a with
  | nil => exact iff_of_false nofun Terms.not_fails_nil
  | cons t rest ih =>
    obtain ⟨op, b⟩ := t
    rw [joinAll_cons, Terms.fails_cons]
    cases he : op.offence a.number b.number with
    | some e' =>
      rw [ArithOp.join_eq_error.2 he]
      simp [Except.bind]
    | none =>
      obtain ⟨z, hz, hnumber, -⟩ := ArithOp.join_of_offence he
      rw [hz, ← hnumber]
      simp [Except.bind, ih]

theorem joinAll_of_sound (h : Terms.Sound a.number terms) :
    ∃ z, a.joinAll terms = .ok z ∧ z.number = Terms.exact a.number terms ∧
      (z.narrow = true ↔ a.narrow = true ∧ Terms.Narrow a.number terms) := by
  induction terms generalizing a with
  | nil => exact ⟨a, rfl, rfl, (and_iff_left Terms.throughout_nil).symm⟩
  | cons t rest ih =>
    obtain ⟨op, b⟩ := t
    obtain ⟨he, hsound⟩ := Terms.throughout_cons.1 h
    obtain ⟨y, hy, hnumber, hnarrow⟩ := ArithOp.join_of_offence he
    obtain ⟨z, hz, hexact, hz'⟩ := ih (hnumber ▸ hsound)
    refine ⟨z, ?_, ?_, ?_⟩
    · rw [joinAll_cons, hy]
      exact hz
    · rw [hexact, hnumber]
      rfl
    · rw [hz', hnarrow, hnumber, Terms.Narrow, Terms.throughout_cons, and_assoc, and_assoc]

end WholeNumber

/-- What the arguments of an arithmetic step are joined to. -/
def ArithKind.start : ArithKind → WholeNumber
  | .additive => .integer 0
  | .multiplicative => .integer 1

namespace Scalar

/-- All arguments come to whole numbers when they are evaluated one after the other. -/
inductive Supplies (externals : List (Option Value)) :
    List (ArithOp × Scalar) → List Value → Terms → Prop
  | nil (regs : List Value) : Supplies externals [] regs []
  | cons {op : ArithOp} {arg : Scalar} {rest : List (ArithOp × Scalar)} {regs : List Value}
    {b : WholeNumber} {terms : Terms} (result : (arg.eval externals regs).1 = .ok true)
    (operand : readRegister (arg.eval externals regs).2 arg.reg = b.value)
    (tail : Supplies externals rest (arg.eval externals regs).2 terms) :
    Supplies externals ((op, arg) :: rest) regs ((op, b) :: terms)

variable {externals : List (Option Value)} {args : List (ArithOp × Scalar)} {regs : List Value}
  {terms : Terms}

theorem join_value {op : ArithOp} (hop : op ≠ .realDivide) (a b : WholeNumber) :
    join op a.value b.value = (op.join a b).map (some ·.value) := by
  have h : join op a.value b.value = (op.apply a.value b.value).map some := by
    cases b <;> rfl
  rw [h, ArithOp.apply_value hop]
  cases op.join a b <;> rfl

theorem evalArgs_of_supplies (h : Supplies externals args regs terms)
    (hops : ∀ t ∈ terms, t.1 ≠ .realDivide) (a : WholeNumber) :
    (evalArgs externals args a.value regs).1 = (a.joinAll terms).map (some ·.value) := by
  induction h generalizing a with
  | nil regs => rfl
  | @cons op arg rest regs b terms result operand tail ih =>
    obtain ⟨hop, hops⟩ := List.forall_mem_cons.1 hops
    have hplain : b.value.isNullLike = false := by cases b <;> rfl
    unfold evalArgs
    generalize arg.eval externals regs = x at result operand ih
    obtain ⟨_, regs⟩ := x
    obtain rfl := result
    simp only [operand, join_value hop, WholeNumber.joinAll_cons, hplain, Bool.false_eq_true,
      ↓reduceIte]
    cases op.join a b with
    | error e => rfl
    | ok z => exact ih hops z

end Scalar

namespace Evaluator
variable {e : Evaluator} {c : Control} {r : Nat} {kind : ArithKind}
  {args : List (ArithOp × Scalar)} {terms : Terms}

end Evaluator
end ShardQuery
