import ShardQuery.Operator.Progress

/-!
The ways in which operators fail. None of them is a failure of the servers, so a call that one of
them ends is not worth repeating, and none of them is about the fetch of the call.
-/

namespace ShardQuery

/-- An error that an operator can raise. -/
inductive Fault : QueryError → Prop
  | protocol (reason : String) : Fault (.protocol reason)
  | memoryExceeded (used limit : Nat) : Fault (.memoryExceeded used limit)
  | invalidArgument (reason : String) : Fault (.invalidArgument reason)
  | divisionByZero : Fault .divisionByZero
  | overflow (operation : String) : Fault (.overflow operation)
  | typeMismatch (reason : String) : Fault (.typeMismatch reason)
  | fieldOf (name kind : String) : Fault (.defect s!"field step {name} applied to a {kind} value")
  | unbound (name : String) :
    Fault (.defect s!"external variable {name} referenced before binding")
  | foldScalar : Fault (.defect "aggregate_row on a non-aggregate iterator")
  | takeScalar : Fault (.defect "take_aggregate on a non-aggregate iterator")
  | groupInput (kind : String) : Fault (.defect s!"group input must be a record, got {kind}")
  | entryMissing : Fault Grouping.entryMissing
  | duplicateInput (kind : String) :
    Fault (.defect s!"duplicate elimination needs records, got {kind}")
  | heapEmptied : Fault (.defect "merge heap emptied during a fetch")

/-- An error that is no defect: what was sent, the budget or the numbers are to blame. -/
inductive Setback : QueryError → Prop
  | protocol (reason : String) : Setback (.protocol reason)
  | memoryExceeded (used limit : Nat) : Setback (.memoryExceeded used limit)
  | invalidArgument (reason : String) : Setback (.invalidArgument reason)
  | divisionByZero : Setback .divisionByZero
  | overflow (operation : String) : Setback (.overflow operation)
  | typeMismatch (reason : String) : Setback (.typeMismatch reason)

theorem Setback.fault {e : QueryError} (h : Setback e) : Fault e := by
  cases h with
  | protocol reason => exact .protocol reason
  | memoryExceeded used limit => exact .memoryExceeded used limit
  | invalidArgument reason => exact .invalidArgument reason
  | divisionByZero => exact .divisionByZero
  | overflow operation => exact .overflow operation
  | typeMismatch reason => exact .typeMismatch reason

namespace Fault
variable {e : QueryError}

theorem not_retryable (h : Fault e) : e.isRetryable = false := by
  cases h <;> rfl

theorem ne_secondFetch (h : Fault e) : e ≠ Control.secondFetch := by
  intro he
  -- every text begins with another letter
  have hs {reason : String} (hr : e = .defect reason) : reason.toList.head? = some 's' := by
    rw [he] at hr
    cases hr
    rfl
  cases h with
  | protocol | memoryExceeded | invalidArgument | divisionByZero | overflow | typeMismatch =>
    cases he
  | _ => simpa [toString] using hs rfl

end Fault

/-- Results that say whether something failed. -/
class Fallible (τ : Type) where
  failure : τ → Option QueryError

instance : Fallible (Option QueryError) := ⟨id⟩

instance {α : Type} : Fallible (Except QueryError α) :=
  ⟨fun x => match x with
    | .ok _ => none
    | .error e => some e⟩

instance {α τ : Type} [Fallible α] : Fallible (α × τ) := ⟨fun x => Fallible.failure x.1⟩

instance {σ : Type} : Fallible (Step σ) :=
  ⟨fun t => match t.signal with
    | .fail e => some e
    | _ => none⟩

/-- If this is a failure, it is of the given kind. -/
def Raises (E : QueryError → Prop) {τ : Type} [Fallible τ] (x : τ) : Prop :=
  ∀ e, Fallible.failure x = some e → E e

/-- If this is a failure, it is one that an operator can raise. -/
abbrev Faulty {τ : Type} [Fallible τ] (x : τ) : Prop := Raises Fault x

namespace Raises
variable {α τ : Type} {E E' : QueryError → Prop} {e : QueryError} {x : Except QueryError α}

/-- What did not fail. -/
theorem none [Fallible τ] {x : τ} (h : Fallible.failure x = .none) : Raises E x := by
  intro e he
  rw [h] at he
  cases he

theorem of_fault [Fallible τ] {x : τ} (hf : E e) (h : Fallible.failure x = some e) :
    Raises E x := by
  intro e' he
  rw [h] at he
  cases he
  exact hf

theorem mono [Fallible τ] {x : τ} (hE : ∀ {e}, E e → E' e) (h : Raises E x) : Raises E' x :=
  fun e he => hE (h e he)

theorem faulty [Fallible τ] {x : τ} (h : Raises Setback x) : Faulty x := h.mono Setback.fault

theorem map {β : Type} (f : α → β) (h : Raises E x) : Raises E (x.map f) := by
  cases x with
  | ok a => exact .none rfl
  | error e => exact h

theorem bind {β : Type} {f : α → Except QueryError β} (h : Raises E x)
    (hf : ∀ a, Raises E (f a)) : Raises E (x >>= f) := by
  cases x with
  | ok a => exact hf a
  | error e => exact h

theorem mapM {β : Type} {f : β → Except QueryError α} (h : ∀ b, Raises E (f b)) (bs : List β) :
    Raises E (bs.mapM f) := by
  induction bs with
  | nil => exact .none rfl
  | cons b rest ih =>
    rw [List.mapM_cons]
    exact (h b).bind fun _ => ih.bind fun _ => .none rfl

end Raises

/-- A check that comes after another one was made as well. -/
theorem ok_of_bind {ε α β : Type} {x : Except ε α} {f : α → Except ε β} {b : β}
    (h : x >>= f = .ok b) : ∃ a, x = .ok a ∧ f a = .ok b := by
  cases x with
  | error e => cases h
  | ok a => exact ⟨a, rfl, h⟩

/-! ## Expressions and aggregates -/

theorem Value.applyDoubles_setback (op : ArithOp) (a b : Value) :
    Raises Setback (applyDoubles op a b) := by
  unfold applyDoubles
  split
  · exact .none rfl
  · exact .of_fault (.typeMismatch _) rfl

theorem Value.applyLongs_setback (op : ArithOp) (a b : Value) :
    Raises Setback (applyLongs op a b) := by
  unfold applyLongs
  split
  · split
    · exact .of_fault .divisionByZero rfl
    · unfold ofLongs
      split
      · exact .none rfl
      · exact .of_fault (.overflow _) rfl
  · exact .of_fault (.typeMismatch _) rfl

theorem ArithOp.apply_setback (op : ArithOp) (a b : Value) : Raises Setback (op.apply a b) := by
  unfold apply
  split
  · apply Value.applyDoubles_setback
  · split
    · exact .of_fault .divisionByZero rfl
    · exact .none rfl
  · apply Value.applyDoubles_setback
  · apply Value.applyDoubles_setback
  · apply Value.applyLongs_setback

theorem Control.charge_setback (c : Control) (n : Nat) : Raises Setback (c.charge n) := by
  unfold charge Ledger.charge
  split
  · exact .none rfl
  · rename_i h
    split at h
    · cases h
    · cases h
      exact .of_fault (.memoryExceeded _ _) rfl

theorem Control.charge_faulty (c : Control) (n : Nat) : Faulty (c.charge n) :=
  (c.charge_setback n).faulty

theorem boundVariable_faulty (externals : List (Option Value)) (id : Nat) (name : String) :
    Faulty (boundVariable externals id name) := by
  unfold boundVariable
  split
  · exact .none rfl
  · exact .of_fault (.unbound name) rfl

namespace Scalar

theorem fieldOf_faulty (v : Value) (name : String) : Faulty (fieldOf v name) := by
  unfold fieldOf
  split
  · exact .none rfl
  · exact .none rfl
  · exact .none rfl
  · exact .none rfl
  · exact .of_fault (.fieldOf name _) rfl

theorem join_faulty (op : ArithOp) (sum operand : Value) : Faulty (join op sum operand) := by
  unfold join
  split
  · exact .none rfl
  · exact .none rfl
  · exact .none rfl
  · exact ((op.apply_setback sum operand).map some).faulty

mutual

theorem eval_faulty (externals : List (Option Value)) (s : Scalar) (regs : List Value) :
    Faulty (s.eval externals regs) := by
  cases s with
  | const r v => exact .none rfl
  | var r => exact .none rfl
  | aggregate r func => exact .none rfl
  | external r name id =>
    have h := boundVariable_faulty externals id name
    unfold eval
    split
    · exact .none rfl
    · rename_i he
      rwa [he] at h
  | field r input name =>
    have h := eval_faulty externals input regs
    unfold eval
    split
    · rename_i regs' _
      have hf := fieldOf_faulty (readRegister regs' input.reg) name
      split
      · exact .none rfl
      · exact .none rfl
      · rename_i he
        rwa [he] at hf
    · exact h
  | arith r kind args =>
    have h := evalArgs_faulty externals args kind.identity regs
    unfold eval
    split
    · exact .none rfl
    · exact .none rfl
    · rename_i he
      rwa [he] at h

theorem evalArgs_faulty (externals : List (Option Value)) (args : List (ArithOp × Scalar))
    (sum : Value) (regs : List Value) : Faulty (evalArgs externals args sum regs) := by
  match args with
  | [] => exact .none rfl
  | (op, arg) :: rest =>
    have h := eval_faulty externals arg regs
    unfold evalArgs
    split
    · rename_i regs' _
      have hj := join_faulty op sum (readRegister regs' arg.reg)
      simp only
      split
      · split
        · exact .none rfl
        · exact evalArgs_faulty externals rest _ _
      · exact .none rfl
      · rename_i he
        rwa [he] at hj
    · exact .none rfl
    · rename_i he
      rwa [he] at h

end

theorem run_faulty (s : Scalar) (c : Control) : Faulty (s.run c) :=
  eval_faulty c.externals s c.registers

end Scalar

namespace Accumulator

theorem plus_setback (a : Accumulator) (v : Value) : Raises Setback (a.plus v) :=
  .bind (ArithOp.apply_setback .add a.value v) fun _ => .none rfl

theorem aggregate_setback (a : Accumulator) (p : Placed) : Raises Setback (a.aggregate p) := by
  have hp := a.plus_setback
  unfold aggregate
  split
  · exact (hp _).map _
  · split
    · exact .none rfl
    · exact (hp _).map _
  · split
    · exact (hp _).map _
    · exact .none rfl
  · split
    · exact .none rfl
    · split
      · exact .none rfl
      · exact (hp _).map _
  all_goals exact .none rfl

theorem aggregateAll_setback (a : Accumulator) (ps : List Placed) :
    Raises Setback (a.aggregateAll ps) := by
  induction ps generalizing a with
  | nil => exact .none rfl
  | cons p rest ih => exact (a.aggregate_setback p).bind fun r => (ih r.2).bind fun _ => .none rfl

theorem merge_setback (a : Accumulator) (p : Placed) : Raises Setback (a.merge p) := by
  have hp := a.plus_setback
  unfold merge
  split
  · split
    · exact (hp _).map _
    · exact .none rfl
  · split
    · exact (hp _).map _
    · exact .none rfl
  · split
    · exact (hp _).map _
    · exact .none rfl
  · exact a.aggregateAll_setback _
  · exact a.aggregateAll_setback _
  · exact a.aggregate_setback _

end Accumulator

namespace Column

theorem run_faulty (col : Column) (c : Control) : Faulty (col.run c) := by
  cases col with
  | scalar s => exact s.run_faulty c
  | aggregate r input acc => exact .none rfl

theorem read_faulty (col : Column) (c : Control) : Faulty (col.read c) := by
  have h := col.run_faulty c
  unfold read
  split
  · exact .none rfl
  · exact .none rfl
  · rename_i he
    rwa [he] at h

theorem inputValue_faulty (input : Option Scalar) (c : Control) : Faulty (inputValue input c) := by
  cases input with
  | none => exact .none rfl
  | some s =>
    have h := s.run_faulty c
    simp only [inputValue]
    split
    · exact .none rfl
    · exact .none rfl
    · rename_i he
      rwa [he] at h

theorem fold_faulty (col : Column) (c : Control) : Faulty (col.fold c) := by
  cases col with
  | scalar s => exact .of_fault .foldScalar rfl
  | aggregate r input acc =>
    have h := inputValue_faulty input c
    simp only [fold]
    split
    · exact ((acc.aggregate_setback _).map _).faulty
    · rename_i he
      rwa [he] at h

theorem take_faulty (col : Column) : Faulty col.take := by
  cases col with
  | scalar s => exact .of_fault .takeScalar rfl
  | aggregate r input acc => exact .none rfl

end Column

/-! ## Operators -/

namespace Selection
variable (s : Selection) (b : Bounds)

theorem evalBound_faulty (clause : String) (bound : Option Scalar) (c : Control) :
    Faulty (evalBound clause bound c) := by
  cases bound with
  | none => exact .none rfl
  | some e =>
    have h := e.run_faulty c
    simp only [evalBound]
    split
    · rename_i he
      rwa [he] at h
    · exact .of_fault (.invalidArgument _) rfl
    · split
      · split
        · exact .none rfl
        · exact .of_fault (.invalidArgument _) rfl
      · exact .of_fault (.invalidArgument _) rfl

theorem evalBounds_faulty (c : Control) : Faulty (s.evalBounds c) := by
  unfold evalBounds
  split
  · exact .none rfl
  · have ho := evalBound_faulty "OFFSET" s.offset c
    split
    · rename_i he
      rwa [he] at ho
    · rename_i d _
      have hl := evalBound_faulty "LIMIT" s.limit d
      split
      · rename_i he
        rwa [he] at hl
      · exact .none rfl

theorem emit_faulty (row : Value) (c : Control) : Faulty (s.emit b row c) := by
  unfold emit
  split <;> exact .none rfl

theorem readColumns_faulty (cols : List Column) (c : Control) : Faulty (readColumns cols c) := by
  induction cols generalizing c with
  | nil => exact .none rfl
  | cons col rest ih =>
    have h := col.read_faulty c
    unfold readColumns
    split
    · rename_i he
      rwa [he] at h
    · rename_i d _
      have hr := ih d
      split
      · rename_i he
        rwa [he] at hr
      · exact .none rfl

theorem project_faulty (c : Control) : Faulty (s.project b c) := by
  unfold project
  split
  · exact s.emit_faulty b _ _
  · have h := readColumns_faulty (s.columns.take s.names.length) c
    split
    · rename_i he
      rwa [he] at h
    · exact s.emit_faulty b _ _

theorem foldRow_faulty (cols : List Column) (memory : Nat) (c : Control) :
    Faulty (foldRow cols memory c) := by
  induction cols generalizing memory c with
  | nil => exact .none rfl
  | cons col rest ih =>
    have h := col.fold_faulty c
    unfold foldRow
    split
    · rename_i he
      rwa [he] at h
    · rename_i grown _ d _
      have hg : Faulty (if grown = 0 then (none, d) else d.charge grown) := by
        split
        · exact .none rfl
        · exact d.charge_faulty grown
      split
      · rename_i he
        rwa [he] at hg
      · exact ih _ _

theorem takeResults_faulty (names : List String) (cols : List Column) :
    Faulty (takeResults names cols) := by
  induction names generalizing cols with
  | nil => exact .none rfl
  | cons name names ih =>
    cases cols with
    | nil => exact .none rfl
    | cons col cols =>
      exact col.take_faulty.bind fun _ => (ih cols).bind fun _ => .none rfl

theorem finishGroup_faulty (key : List Value) (c : Control) : Faulty (s.finishGroup key c) := by
  have h := takeResults_faulty (s.names.drop key.length) s.aggregates
  unfold finishGroup
  split
  · rename_i he
    rwa [he] at h
  · exact .none rfl

theorem foldAndEmit_faulty (row : Option Value) (c : Control) :
    Faulty (s.foldAndEmit b row c) := by
  have h := foldRow_faulty s.aggregates s.groupMemory c
  unfold foldAndEmit
  simp only
  split
  · rename_i he
    intro e hf
    exact h e (he.trans hf)
  · apply emit_faulty
  · exact .none rfl

theorem groupRow_faulty (c : Control) : Faulty (s.groupRow b c) := by
  have h := readColumns_faulty s.columns c
  unfold groupRow
  simp only
  split
  · rename_i he
    rwa [he] at h
  · split
    · apply foldAndEmit_faulty
    · rename_i d _ _ current _
      split
      · apply foldAndEmit_faulty
      · have hf := finishGroup_faulty { s with sawInput := true, current := none } current d
        split
        · rename_i he
          rwa [he] at hf
        · apply foldAndEmit_faulty

theorem endGroups_faulty (gb : Nat) (c : Control) : Faulty (s.endGroups b gb c) := by
  unfold endGroups
  split
  · rename_i current _
    have h := finishGroup_faulty { s with current := none } current c
    split
    · rename_i he
      rwa [he] at h
    · apply emit_faulty
  · split
    · have h := s.finishGroup_faulty [] c
      split
      · rename_i he
        rwa [he] at h
      · apply emit_faulty
    · exact .none rfl

/-- What goes wrong in a selection is its own fault or that of its input. -/
theorem onInput_faulty {i : Step Operator} (h : Faulty i) :
    Faulty (s.onInput b i.signal i.control) := by
  unfold onInput
  split
  · exact s.project_faulty b _
  · exact s.groupRow_faulty b _
  · split
    · exact .none rfl
    · split
      · exact .none rfl
      · exact s.endGroups_faulty b _ _
  · exact h

theorem begin_faulty {c : Control} {r : Step Selection} (h : s.begin c = .inl r) : Faulty r := by
  have hb := s.evalBounds_faulty c
  unfold begin at h
  split at h
  · cases h
    exact .none rfl
  · split at h
    · rename_i he
      cases h
      rwa [he] at hb
    · simp only at h
      split at h
      · cases h
        exact .none rfl
      · cases h

end Selection

namespace Grouping
variable (g : Grouping)

theorem chargeKey_faulty (key : List Value) (c : Control) : Faulty (g.chargeKey key c) := by
  unfold chargeKey
  split
  · exact c.charge_faulty _
  · exact .none rfl

theorem insert_faulty (key : List Value) (c : Control) : Faulty (g.insert key c) := by
  have h := g.chargeKey_faulty key c
  unfold insert
  split
  · rename_i he
    rwa [he] at h
  · exact .none rfl

theorem streamRow_faulty (key : List Value) (c : Control) : Faulty (g.streamRow key c) := by
  have h := g.insert_faulty key c
  unfold streamRow
  split
  · exact .none rfl
  · split
    · rename_i he
      rwa [he] at h
    · exact .none rfl

theorem mergeAll_setback (accs : List Accumulator) (vs : List Value) :
    Raises Setback (mergeAll accs vs) := by
  induction accs generalizing vs with
  | nil => exact .none rfl
  | cons acc accs ih =>
    cases vs with
    | nil => exact .none rfl
    | cons v vs =>
      have h := acc.merge_setback v
      unfold mergeAll
      split
      · rename_i he
        rwa [he] at h
      · exact ih vs

theorem foldRow_faulty (key partials : List Value) (c : Control) :
    Faulty (g.foldRow key partials c) := by
  unfold foldRow
  split
  · exact .none rfl
  · rename_i e _
    have h := (mergeAll_setback e.accumulators partials).faulty
    simp only
    split
    · rename_i he
      intro e hf
      exact h e (he.trans hf)
    · split
      · exact .none rfl
      · have hc := c.charge_faulty (mergeAll e.accumulators partials).2.2
        split
        · rename_i he
          rwa [he] at hc
        · exact .none rfl

theorem ensure_faulty (key : List Value) (c : Control) : Faulty (g.ensure key c) := by
  unfold ensure
  split
  · exact .none rfl
  · exact g.insert_faulty key c

theorem consume_faulty (c : Control) : Faulty (g.consume c) := by
  unfold consume
  split
  · split
    · exact .none rfl
    · rename_i key _
      split
      · exact g.streamRow_faulty key c
      · have h := g.ensure_faulty key c
        split
        · rename_i he
          rwa [he] at h
        · apply foldRow_faulty
  · exact .of_fault (.groupInput _) rfl

theorem endInput_faulty (c : Control) : Faulty (g.endInput c) := by
  unfold endInput
  split
  · exact .none rfl
  · split
    · have h := g.insert_faulty [] c
      split
      · rename_i he
        rwa [he] at h
      · exact .none rfl
    · exact .none rfl

theorem emitNext_faulty (c : Control) : Faulty (g.emitNext c) := by
  unfold emitNext
  split
  · exact .none rfl
  · simp only
    split
    · exact .of_fault .entryMissing rfl
    · split <;> exact .none rfl

theorem onInput_faulty {i : Step Operator} (h : Faulty i) :
    Faulty (g.onInput i.signal i.control) := by
  unfold onInput
  split
  · exact g.consume_faulty _
  · split
    · exact .none rfl
    · exact g.endInput_faulty _
  · exact h

end Grouping

namespace Sorting
variable (s : Sorting)

theorem consume_faulty (c : Control) : Faulty (s.consume c) := by
  have h : Faulty (s.chargeRow (c.reg s.inputReg) c) := by
    unfold chargeRow
    split
    · exact c.charge_faulty _
    · exact .none rfl
  unfold consume
  simp only
  split
  · rename_i he
    rwa [he] at h
  · exact .none rfl

theorem onInput_faulty {i : Step Operator} (h : Faulty i) :
    Faulty (s.onInput i.signal i.control) := by
  unfold onInput
  split
  · exact s.consume_faulty _
  · split <;> exact .none rfl
  · exact h

theorem emitNext_faulty (rows : List Value) (c : Control) : Faulty (s.emitNext rows c) := by
  cases rows <;> exact .none rfl

end Sorting

namespace Scan
variable (s : Scan) (c : Control)

theorem yieldRow_faulty (row : Value) : Faulty (s.yieldRow row c) := by
  unfold yieldRow
  split
  · exact .none rfl
  · rename_i d _
    split
    · exact .none rfl
    · rename_i e he
      unfold DuplicateSet.inspect at he
      split at he
      · cases he
        exact .of_fault (.duplicateInput _) rfl
      · simp only at he
        split at he <;> cases he
    · rename_i cost _ _
      have h := c.charge_faulty cost
      split
      · exact .none rfl
      · rename_i he
        rwa [he] at h

theorem mergeLimit_setback : Raises Setback (s.mergeLimit c) := by
  unfold mergeLimit
  split
  · exact .none rfl
  · simp only
    split
    · exact .of_fault (.memoryExceeded _ _) rfl
    · exact .none rfl

theorem ask_faulty {limit : Except QueryError Nat} (h : Faulty limit)
    (request : Nat → FetchRequest) : Faulty (s.ask c limit request) := by
  unfold ask
  split
  · exact .none rfl
  · cases limit with
    | ok n => exact .none rfl
    | error e => exact h

theorem step_faulty : Faulty (s.step c) := by
  have hb : Faulty (.ok c.config.batchLimit : Except QueryError Nat) := .none rfl
  unfold step
  split
  · exact .none rfl
  · unfold stepPlain
    split
    · apply yieldRow_faulty
    · split
      · exact .none rfl
      · exact s.ask_faulty c hb _
  · exact s.ask_faulty c hb _
  · unfold stepMerge
    split
    · exact .none rfl
    · simp only
      split
      · apply yieldRow_faulty
      · split
        · exact .none rfl
        · exact s.ask_faulty c (s.mergeLimit_setback c).faulty _

theorem checkCounts_setback (seen : List Int) (counts : List (Int × Int)) :
    Raises Setback (checkCounts seen counts) := by
  induction counts generalizing seen with
  | nil => exact .none rfl
  | cons p rest ih =>
    unfold checkCounts
    split
    · exact .of_fault (.protocol _) rfl
    · split
      · exact .of_fault (.protocol _) rfl
      · exact ih _

theorem checkPhase1_setback (batch : Batch) : Raises Setback (s.checkPhase1 batch) := by
  unfold checkPhase1
  split
  · simp only
    split
    · exact .of_fault (.protocol _) rfl
    · refine .bind (checkCounts_setback _ _) fun _ => ?_
      split
      · exact .of_fault (.protocol _) rfl
      · split
        · exact .of_fault (.protocol _) rfl
        · exact .none rfl
  · exact .of_fault (.protocol _) rfl

theorem addVirtualScans_setback (scans : List VirtualScan) :
    Raises Setback (s.addVirtualScans c scans) := by
  induction scans generalizing s c with
  | nil => exact .none rfl
  | cons scan rest ih =>
    unfold addVirtualScans
    split
    · exact .of_fault (.protocol _) rfl
    · exact ih _ _

theorem deliver_faulty (batch : Batch) : Faulty (s.deliver c batch) := by
  have h := c.charge_faulty (sizeOfRows batch.rows)
  unfold deliver
  split
  · unfold stagePlain
    split
    · rename_i he
      rwa [he] at h
    · exact .none rfl
  · have hp := (s.checkPhase1_setback batch).faulty
    unfold stagePhase1
    split
    · rename_i he
      rwa [he] at hp
    · split
      · rename_i he
        rwa [he] at h
      · simp only
        split <;> exact .none rfl
  · unfold stageMerge
    split
    · exact .of_fault .heapEmptied rfl
    · simp only
      split
      · rename_i he
        rwa [he] at h
      · exact (addVirtualScans_setback _ _ _).faulty
  · exact .none rfl

end Scan

namespace Operator

theorem step_faulty (op : Operator) (c : Control) : Faulty (op.step c) := by
  induction op generalizing c with
  | scan s => exact s.step_faulty c
  | select s input ih =>
    unfold step
    split
    · rename_i h
      exact s.begin_faulty h
    · exact Selection.onInput_faulty _ _ (ih _)
  | group g input ih =>
    unfold step
    split
    · exact .none rfl
    · exact g.emitNext_faulty c
    · exact g.onInput_faulty (ih c)
  | sort s input ih =>
    unfold step
    split
    · exact s.emitNext_faulty _ c
    · exact s.onInput_faulty (ih c)

theorem pull_faulty (op : Operator) (c : Control) : Faulty (op.pull c) := by
  induction h : op.work using Nat.strongRecOn generalizing op c with
  | ind n ih =>
    rw [pull_eq]
    split
    · rename_i hm
      exact ih _ (h ▸ step_work_lt (by rw [hm]; rfl)) _ _ rfl
    · exact op.step_faulty c

theorem deliver_faulty (op : Operator) (c : Control) (batch : Batch) :
    Faulty (op.deliver c batch) := by
  induction op with
  | scan s => exact s.deliver_faulty c batch
  | select s input ih => exact ih
  | group g input ih => exact ih
  | sort s input ih => exact ih

end Operator
end ShardQuery
