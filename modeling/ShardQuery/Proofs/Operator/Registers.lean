import ShardQuery.Proofs.Operator.Frame

/-!
Of the registers, columns see only those that their variables name, and what they put into others
depends on nothing else.
-/

namespace ShardQuery

theorem readRegister_set (regs : List Value) (r q : Nat) (v : Value) :
    readRegister (regs.set r v) q = if q = r ∧ r < regs.length then v else readRegister regs q := by
  unfold readRegister
  rw [List.getD_eq_getElem?_getD, List.getD_eq_getElem?_getD, List.getElem?_set]
  by_cases hq : r = q
  · subst hq
    by_cases hl : r < regs.length
    · simp [hl]
    · simp [hl]
  · simp [hq, Ne.symm hq]

theorem readRegister_of_le {regs : List Value} {r : Nat} (h : regs.length ≤ r) :
    readRegister regs r = .empty := by
  rw [readRegister, List.getD_eq_getElem?_getD, List.getElem?_eq_none h, Option.getD_none]

/-- As many registers, some of which hold the same. -/
structure Agree (P : Nat → Prop) (regs regs' : List Value) : Prop where
  length : regs.length = regs'.length
  read : ∀ r, P r → readRegister regs r = readRegister regs' r

namespace Agree

variable {P Q : Nat → Prop} {regs regs' : List Value}

theorem mono (h : Agree P regs regs') (hs : ∀ r, Q r → P r) : Agree Q regs regs' :=
  ⟨h.length, fun r hr => h.read r (hs r hr)⟩

theorem refl (P : Nat → Prop) (regs : List Value) : Agree P regs regs := ⟨rfl, fun _ _ => rfl⟩

theorem trans {regs'' : List Value} (h : Agree P regs regs') (h' : Agree P regs' regs'') :
    Agree P regs regs'' :=
  ⟨h.length.trans h'.length, fun r hr => (h.read r hr).trans (h'.read r hr)⟩

/-- What is put into both is in both. -/
theorem set (h : Agree P regs regs') (r : Nat) (v : Value) :
    Agree (fun q => P q ∨ q = r) (regs.set r v) (regs'.set r v) := by
  refine ⟨by rw [List.length_set, List.length_set, h.length], fun q hq => ?_⟩
  rw [readRegister_set, readRegister_set, h.length]
  split
  · rfl
  · rename_i hn
    rcases hq with hq | rfl
    · exact h.read q hq
    · have hl : regs'.length ≤ q := by simpa using hn
      rw [readRegister_of_le hl, readRegister_of_le (h.length ▸ hl)]

theorem set_same (h : Agree P regs regs') (r : Nat) (v : Value) :
    Agree P (regs.set r v) (regs'.set r v) := (h.set r v).mono fun _ => .inl

/-- What is put into one of them is not among what has to agree. -/
theorem set_left (h : Agree P regs regs') {r : Nat} (hr : ¬P r) (v : Value) :
    Agree P (regs.set r v) regs' := by
  refine ⟨by rw [List.length_set, h.length], fun q hq => ?_⟩
  have hn : ¬(q = r ∧ r < regs.length) := fun hn => hr (hn.1 ▸ hq)
  rw [readRegister_set, if_neg hn]
  exact h.read q hq

end Agree

/-! ## Expressions -/

namespace Scalar

mutual

/-- The registers that an expression reads as variables. -/
def reads : Scalar → List Nat
  | .const _ _ | .external _ _ _ | .aggregate _ _ => []
  | .var r => [r]
  | .field _ input _ => input.reads
  | .arith _ _ args => readsArgs args

def readsArgs : List (ArithOp × Scalar) → List Nat
  | [] => []
  | (_, arg) :: rest => arg.reads ++ readsArgs rest

end

mutual

/-- The registers that an expression puts values into. -/
def writes : Scalar → List Nat
  | .const r _ | .external r _ _ | .aggregate r _ => [r]
  | .var _ => []
  | .field r input _ => r :: input.writes
  | .arith r _ args => r :: writesArgs args

def writesArgs : List (ArithOp × Scalar) → List Nat
  | [] => []
  | (_, arg) :: rest => arg.writes ++ writesArgs rest

end

variable {P : Nat → Prop} {externals : List (Option Value)} {regs regs' : List Value}

/-- Two evaluations with the same outcome, and with the same value if there is one. -/
structure Matches (P : Nat → Prop) (reg : Nat) (x y : Except QueryError Bool × List Value) :
    Prop where
  result : x.1 = y.1
  agree : Agree P x.2 y.2
  value : x.1 = .ok true → readRegister x.2 reg = readRegister y.2 reg

theorem matches_set (h : Agree P regs regs') (r : Nat) (v : Value) :
    Matches P r (.ok true, regs.set r v) (.ok true, regs'.set r v) :=
  ⟨rfl, h.set_same r v, fun _ => (h.set r v).read r (.inr rfl)⟩

mutual

theorem eval_matches (s : Scalar) {regs regs' : List Value} (h : Agree P regs regs')
    (hr : ∀ r ∈ s.reads, P r) :
    Matches P s.reg (s.eval externals regs) (s.eval externals regs') := by
  match s with
  | .const r v => exact matches_set h r v
  | .aggregate r func => exact matches_set h r _
  | .var r => exact ⟨rfl, h, fun _ => h.read r (hr r (List.mem_singleton_self r))⟩
  | .external r name id =>
    unfold eval
    cases boundVariable externals id name with
    | ok v => exact matches_set h r v
    | error e => exact ⟨rfl, h, nofun⟩
  | .field r input name =>
    obtain ⟨hres, ha, hv⟩ := eval_matches input h hr
    unfold eval
    generalize input.eval externals regs = x at hres ha hv
    generalize input.eval externals regs' = y at hres ha hv
    obtain ⟨xr, x⟩ := x
    obtain ⟨yr, y⟩ := y
    cases hres
    rcases xr with e | _ | _
    · exact ⟨rfl, ha, nofun⟩
    · exact ⟨rfl, ha, nofun⟩
    · simp only [hv rfl]
      split
      · exact matches_set ha r _
      · exact ⟨rfl, ha, nofun⟩
      · exact ⟨rfl, ha, nofun⟩
  | .arith r kind args =>
    obtain ⟨hres, ha⟩ := evalArgs_matches args kind.identity h hr
    unfold eval
    generalize evalArgs externals args kind.identity regs = x at hres ha
    generalize evalArgs externals args kind.identity regs' = y at hres ha
    obtain ⟨xr, x⟩ := x
    obtain ⟨yr, y⟩ := y
    cases hres
    rcases xr with e | _ | v
    · exact ⟨rfl, ha, nofun⟩
    · exact ⟨rfl, ha, nofun⟩
    · exact matches_set ha r v

theorem evalArgs_matches (args : List (ArithOp × Scalar)) (sum : Value) {regs regs' : List Value}
    (h : Agree P regs regs') (hr : ∀ r ∈ readsArgs args, P r) :
    (evalArgs externals args sum regs).1 = (evalArgs externals args sum regs').1 ∧
      Agree P (evalArgs externals args sum regs).2 (evalArgs externals args sum regs').2 := by
  match args with
  | [] => exact ⟨rfl, h⟩
  | (op, arg) :: rest =>
    obtain ⟨harg, hrest⟩ := List.forall_mem_append.1 hr
    obtain ⟨hres, ha, hv⟩ := eval_matches arg h harg
    unfold evalArgs
    generalize arg.eval externals regs = x at hres ha hv
    generalize arg.eval externals regs' = y at hres ha hv
    obtain ⟨xr, x⟩ := x
    obtain ⟨yr, y⟩ := y
    cases hres
    rcases xr with e | _ | _
    · exact ⟨rfl, ha⟩
    · exact ⟨rfl, ha⟩
    · simp only [hv rfl]
      split
      · split
        · exact ⟨rfl, ha⟩
        · exact evalArgs_matches rest _ ha hrest
      · exact ⟨rfl, ha⟩
      · exact ⟨rfl, ha⟩

end

mutual

/-- What an expression does not name as a result is as it was. -/
theorem eval_frame (s : Scalar) (regs : List Value) :
    Agree (· ∉ s.writes) (s.eval externals regs).2 regs := by
  match s with
  | .const r v | .aggregate r func =>
    exact (Agree.refl _ regs).set_left (by simp [writes]) _
  | .var r => exact .refl _ regs
  | .external r name id =>
    unfold eval
    cases boundVariable externals id name with
    | ok v => exact (Agree.refl _ regs).set_left (by simp [writes]) _
    | error e => exact .refl _ regs
  | .field r input name =>
    have h : Agree (· ∉ (Scalar.field r input name).writes) (input.eval externals regs).2 regs :=
      (eval_frame input regs).mono fun q hq => by simp_all [writes]
    unfold eval
    generalize input.eval externals regs = x at h
    obtain ⟨_ | _ | _, x⟩ := x
    · exact h
    · exact h
    · dsimp only
      split
      · exact h.set_left (by simp [writes]) _
      · exact h
      · exact h
  | .arith r kind args =>
    have h := (evalArgs_frame args kind.identity regs).mono
      (Q := (· ∉ (Scalar.arith r kind args).writes)) fun q hq => by simp_all [writes]
    unfold eval
    generalize evalArgs externals args kind.identity regs = x at h
    obtain ⟨_ | _ | _, x⟩ := x
    · exact h
    · exact h
    · exact h.set_left (by simp [writes]) _

theorem evalArgs_frame (args : List (ArithOp × Scalar)) (sum : Value) (regs : List Value) :
    Agree (· ∉ writesArgs args) (evalArgs externals args sum regs).2 regs := by
  match args with
  | [] => exact .refl _ regs
  | (op, arg) :: rest =>
    have h := (eval_frame arg regs).mono
      (Q := (· ∉ writesArgs ((op, arg) :: rest))) fun q hq => by simp_all [writesArgs]
    unfold evalArgs
    generalize arg.eval externals regs = x at h
    obtain ⟨_ | _ | _, x⟩ := x
    · exact h
    · exact h
    · dsimp only
      split
      · split
        · exact h
        · refine ((evalArgs_frame rest _ x).mono fun q hq => ?_).trans h
          simp_all [writesArgs]
      · exact h
      · exact h

end

end Scalar

/-! ## Controls -/

/-- Controls with the same budget and the same bound values, whose registers agree where it
matters. -/
structure Control.Alike (P : Nat → Prop) (c d : Control) : Prop where
  externals : c.externals = d.externals
  ledger : c.ledger = d.ledger
  registers : Agree P c.registers d.registers

/-- The same result, with a control like the other one. -/
def Alongside (P : Nat → Prop) {τ : Type} [Carries τ] (x y : τ) : Prop :=
  ∃ d, (Carries.control x).Alike P d ∧ y = Carries.onControl (fun _ => d) x

/-- How many registers there are. -/
def Control.size (c : Control) : Nat := c.registers.length

variable {P : Nat → Prop} {c d : Control}

theorem Control.setReg_size (c : Control) (r : Nat) (v : Value) : (c.setReg r v).size = c.size :=
  List.length_set

theorem Control.setReg_reg {r : Nat} (hr : r < c.size) (v : Value) : (c.setReg r v).reg r = v := by
  rw [setReg, reg, readRegister_set, if_pos ⟨rfl, hr⟩]

theorem Control.charge_size (c : Control) (n : Nat) : (c.charge n).2.size = c.size :=
  congrArg List.length (c.charge_registers n)

namespace Control.Alike

theorem refl (P : Nat → Prop) (c : Control) : Alike P c c := ⟨rfl, rfl, .refl P _⟩

theorem mono {Q : Nat → Prop} (h : Alike P c d) (hs : ∀ r, Q r → P r) : Alike Q c d :=
  ⟨h.externals, h.ledger, h.registers.mono hs⟩

theorem charge (h : Alike P c d) (n : Nat) : Alongside P (c.charge n) (d.charge n) := by
  unfold Control.charge
  rw [← h.ledger]
  cases c.ledger.charge n with
  | ok ledger => exact ⟨{ d with ledger }, ⟨h.externals, rfl, h.registers⟩, rfl⟩
  | error e => exact ⟨d.emit _, ⟨h.externals, h.ledger, h.registers⟩, rfl⟩

theorem release (h : Alike P c d) (n : Nat) : Alike P (c.release n) (d.release n) :=
  ⟨h.externals, congrArg (·.release n) h.ledger, h.registers⟩

end Control.Alike

theorem Scalar.run_alongside (s : Scalar) (h : c.Alike P d) (hr : ∀ r ∈ s.reads, P r) :
    ∃ d', (s.run c).2.Alike P d' ∧ s.run d = ((s.run c).1, d') ∧
      ((s.run c).1 = .ok true → (s.run c).2.reg s.reg = d'.reg s.reg) := by
  obtain ⟨hres, ha, hv⟩ := @Scalar.eval_matches P c.externals s _ _ h.registers hr
  refine ⟨(s.run d).2, ⟨h.externals, h.ledger, ?_⟩, Prod.ext ?_ rfl, ?_⟩ <;>
    simp only [run, Control.reg, ← h.externals]
  · exact ha
  · exact hres.symm
  · exact hv

theorem Scalar.run_size (s : Scalar) (c : Control) : (s.run c).2.size = c.size :=
  (s.eval_frame c.registers).length

/-! ## Columns -/

namespace Column

theorem read_size (col : Column) (c : Control) : (col.read c).2.size = c.size := by
  have h : (col.run c).2.size = c.size := by
    cases col with
    | scalar s => exact s.run_size c
    | aggregate r input acc => exact c.setReg_size r acc.result
  unfold read
  split <;> rename_i hr <;> rw [hr] at h <;> exact h

theorem inputValue_size (input : Option Scalar) (c : Control) :
    (inputValue input c).2.size = c.size := by
  cases input with
  | none => rfl
  | some s =>
    have h := s.run_size c
    unfold inputValue
    simp only
    split <;> rename_i hr <;> rw [hr] at h <;> exact h

theorem fold_size (col : Column) (c : Control) : (col.fold c).2.size = c.size := by
  cases col with
  | scalar s => rfl
  | aggregate r input acc =>
    have h := inputValue_size input c
    unfold fold
    simp only
    split <;> rename_i hr <;> rw [hr] at h <;> exact h

/-- The registers that a column reads as variables. -/
def reads : Column → List Nat
  | .scalar s => s.reads
  | .aggregate _ none _ => []
  | .aggregate _ (some s) _ => s.reads

theorem read_alongside (col : Column) (h : c.Alike P d) (hr : ∀ r ∈ col.reads, P r) :
    Alongside P (col.read c) (col.read d) := by
  cases col with
  | scalar s =>
    obtain ⟨d', hd, he, hv⟩ := s.run_alongside h hr
    simp only [read, run, reg, he]
    generalize s.run c = x at hd hv
    rcases x with ⟨_ | _ | _, x⟩
    · exact ⟨d', hd, rfl⟩
    · exact ⟨d', hd, rfl⟩
    · simp only [← hv rfl]
      exact ⟨d', hd, rfl⟩
  | aggregate r input acc =>
    have hs := h.registers.set r acc.result
    have hv : (c.setReg r acc.result).reg r = (d.setReg r acc.result).reg r := hs.read r (.inr rfl)
    simp only [read, run, reg, ← hv]
    exact ⟨d.setReg r acc.result, ⟨h.externals, h.ledger, hs.mono fun _ => .inl⟩, rfl⟩

theorem inputValue_alongside (input : Option Scalar) (h : c.Alike P d)
    (hr : ∀ s, input = some s → ∀ r ∈ s.reads, P r) :
    Alongside P (inputValue input c) (inputValue input d) := by
  cases input with
  | none => exact ⟨d, h, rfl⟩
  | some s =>
    obtain ⟨d', hd, he, hv⟩ := s.run_alongside h (hr s rfl)
    simp only [inputValue, he]
    generalize s.run c = x at hd hv
    rcases x with ⟨_ | _ | _, x⟩
    · exact ⟨d', hd, rfl⟩
    · exact ⟨d', hd, rfl⟩
    · simp only [← hv rfl]
      exact ⟨d', hd, rfl⟩

theorem fold_alongside (col : Column) (h : c.Alike P d) (hr : ∀ r ∈ col.reads, P r) :
    Alongside P (col.fold c) (col.fold d) := by
  cases col with
  | scalar s => exact ⟨d, h, rfl⟩
  | aggregate r input acc =>
    have hi : ∀ s, input = some s → ∀ r ∈ s.reads, P r := by
      rintro s rfl
      exact hr
    obtain ⟨d', hd, he⟩ := inputValue_alongside input h hi
    simp only [fold, he]
    generalize inputValue input c = x at hd ⊢
    rcases x with ⟨_ | _, x⟩ <;> exact ⟨d', hd, rfl⟩

/-- What stays of a column when rows are folded into it: its expression, or what its aggregate is
taken of. -/
def formula : Column → Scalar ⊕ Option Scalar
  | .scalar s => .inl s
  | .aggregate _ input _ => .inr input

/-- The registers that a formula reads as variables. -/
def formulaReads : Scalar ⊕ Option Scalar → List Nat
  | .inl s => s.reads
  | .inr input => (input.map Scalar.reads).getD []

theorem formulaReads_formula (col : Column) : formulaReads col.formula = col.reads := by
  cases col with
  | scalar s => rfl
  | aggregate r input acc => cases input <;> rfl

theorem formula_of_fold {col col' : Column} {n : Nat} (h : (col.fold c).1 = .ok (n, col')) :
    col'.formula = col.formula := by
  cases col with
  | scalar s => cases h
  | aggregate r input acc =>
    simp only [fold] at h
    split at h
    · rename_i v _ _
      cases hv : acc.aggregate v with
      | error e =>
        rw [hv] at h
        cases h
      | ok x =>
        rw [hv] at h
        cases h
        rfl
    · cases h

theorem formula_of_take {col col' : Column} {v : Value} {n : Nat}
    (h : col.take = .ok (v, n, col')) : col'.formula = col.formula := by
  cases col with
  | scalar s => cases h
  | aggregate r input acc =>
    cases h
    rfl

end Column

end ShardQuery
