import ShardQuery.Operator.Progress
import ShardQuery.Proofs.Operator.Frame

/-!
What operators note. They note what becomes of rows, of partitions and of the budget, and nothing
else: that a fetch was sent or failed, or that a query is over, is for the calls to note.
-/

namespace ShardQuery

/-- The events that operators note. -/
def Event.isOfOperators : Event → Bool
  | .sortPhase1Complete _ | .virtualScanSeeded _ _ _ | .duplicateDropped
  | .memoryExceeded _ _ _ => true
  | _ => false

namespace Control

/-- The events that are not the operators'. -/
def callEvents (c : Control) : List Event := c.events.filter fun e => !e.isOfOperators

theorem charge_callEvents (c : Control) (n : Nat) : (c.charge n).2.callEvents = c.callEvents := by
  unfold charge
  split <;> rfl

end Control

theorem Scalar.run_callEvents (s : Scalar) (c : Control) :
    (s.run c).2.callEvents = c.callEvents := rfl

namespace Column

theorem read_callEvents (col : Column) (c : Control) :
    (col.read c).2.callEvents = c.callEvents := by
  have hrun : (col.run c).2.callEvents = c.callEvents := by
    cases col with
    | scalar s => exact s.run_callEvents c
    | aggregate r input acc => rfl
  simp only [read]
  generalize col.run c = r at hrun ⊢
  rcases r with ⟨_ | _ | _, d⟩ <;> exact hrun

theorem fold_callEvents (col : Column) (c : Control) :
    (col.fold c).2.callEvents = c.callEvents := by
  cases col with
  | scalar s => rfl
  | aggregate r input acc =>
    have hinput : (inputValue input c).2.callEvents = c.callEvents := by
      cases input with
      | none => rfl
      | some s =>
        have hrun := s.run_callEvents c
        simp only [inputValue]
        generalize s.run c = r at hrun ⊢
        rcases r with ⟨_ | _ | _, d⟩ <;> exact hrun
    simp only [fold]
    generalize inputValue input c = r at hinput ⊢
    rcases r with ⟨_ | _, d⟩ <;> exact hinput

end Column

namespace Selection
variable (s : Selection) (b : Bounds) (c : Control)

theorem evalBound_callEvents (clause : String) (bound : Option Scalar) :
    (evalBound clause bound c).2.callEvents = c.callEvents := by
  cases bound with
  | none => rfl
  | some e =>
    have hrun := e.run_callEvents c
    simp only [evalBound]
    generalize e.run c = r at hrun ⊢
    rcases r with ⟨_ | _ | _, d⟩
    · exact hrun
    · exact hrun
    · simp only
      split
      · split <;> exact hrun
      · exact hrun

theorem evalBounds_callEvents : (s.evalBounds c).2.callEvents = c.callEvents := by
  unfold evalBounds
  split
  · rfl
  · have hoffset := evalBound_callEvents c "OFFSET" s.offset
    generalize evalBound "OFFSET" s.offset c = r at hoffset ⊢
    rcases r with ⟨_ | _, d⟩
    · exact hoffset
    · have hlimit := evalBound_callEvents d "LIMIT" s.limit
      simp only
      generalize evalBound "LIMIT" s.limit d = r at hlimit ⊢
      rcases r with ⟨_ | _, e⟩ <;> exact hlimit.trans hoffset

theorem emit_callEvents (row : Value) : (s.emit b row c).control.callEvents = c.callEvents := by
  unfold emit
  split <;> rfl

theorem readColumns_callEvents (cols : List Column) :
    (readColumns cols c).2.callEvents = c.callEvents := by
  induction cols generalizing c with
  | nil => rfl
  | cons col rest ih =>
    have hread := col.read_callEvents c
    simp only [readColumns]
    generalize col.read c = r at hread ⊢
    rcases r with ⟨_ | _, d⟩
    · exact hread
    · have hrest := ih d
      simp only
      generalize readColumns rest d = r at hrest ⊢
      rcases r with ⟨_ | _, e⟩ <;> exact hrest.trans hread

theorem project_callEvents : (s.project b c).control.callEvents = c.callEvents := by
  unfold project
  split
  · exact s.emit_callEvents b c _
  · have hread := readColumns_callEvents c (s.columns.take s.names.length)
    generalize readColumns (s.columns.take s.names.length) c = r at hread ⊢
    rcases r with ⟨_ | _, d⟩
    · exact hread
    · exact (s.emit_callEvents b d _).trans hread

theorem foldRow_callEvents (cols : List Column) (memory : Nat) :
    (foldRow cols memory c).2.2.2.callEvents = c.callEvents := by
  induction cols generalizing memory c with
  | nil => rfl
  | cons col rest ih =>
    have hfold := col.fold_callEvents c
    simp only [foldRow]
    generalize col.fold c = r at hfold ⊢
    rcases r with ⟨_ | ⟨grown, col⟩, d⟩
    · exact hfold
    · have hgrown : (if grown = 0 then (none, d) else d.charge grown).2.callEvents =
          d.callEvents := by
        split
        · rfl
        · exact d.charge_callEvents grown
      simp only
      generalize (if grown = 0 then (none, d) else d.charge grown) = r at hgrown ⊢
      rcases r with ⟨_ | e, d'⟩
      · exact (ih d' (memory + grown)).trans (hgrown.trans hfold)
      · exact hgrown.trans hfold

theorem finishGroup_callEvents (key : List Value) :
    (s.finishGroup key c).2.2.callEvents = c.callEvents := by
  unfold finishGroup
  split <;> rfl

theorem foldAndEmit_callEvents (row : Option Value) :
    (s.foldAndEmit b row c).control.callEvents = c.callEvents := by
  have hfold := foldRow_callEvents c s.aggregates s.groupMemory
  simp only [foldAndEmit]
  generalize foldRow s.aggregates s.groupMemory c = r at hfold ⊢
  rcases r with ⟨_ | e, aggregates, memory, d⟩
  · cases row with
    | none => exact hfold
    | some row => exact (emit_callEvents _ b d row).trans hfold
  · exact hfold

theorem groupRow_callEvents : (s.groupRow b c).control.callEvents = c.callEvents := by
  have hread := readColumns_callEvents c s.columns
  unfold groupRow
  simp only
  generalize readColumns s.columns c = r at hread ⊢
  rcases r with ⟨_ | key, d⟩
  · exact hread
  simp only
  split
  · exact (foldAndEmit_callEvents _ b d none).trans hread
  · rename_i current _
    split
    · exact (foldAndEmit_callEvents _ b d none).trans hread
    · have hfinish :=
        finishGroup_callEvents { s with sawInput := true, current := none } d current
      generalize finishGroup _ current d = r at hfinish ⊢
      rcases r with ⟨_ | row, t, e⟩
      · exact hfinish.trans hread
      · exact (foldAndEmit_callEvents _ b e _).trans (hfinish.trans hread)

theorem endGroups_callEvents (gb : Nat) :
    (s.endGroups b gb c).control.callEvents = c.callEvents := by
  unfold endGroups
  split
  · rename_i current _
    have hfinish := finishGroup_callEvents { s with current := none } c current
    generalize finishGroup _ current c = r at hfinish ⊢
    rcases r with ⟨_ | row, t, e⟩
    · exact hfinish
    · exact (emit_callEvents _ b e row).trans hfinish
  · split
    · have hfinish := finishGroup_callEvents s c []
      generalize finishGroup s [] c = r at hfinish ⊢
      rcases r with ⟨_ | row, t, e⟩
      · exact hfinish
      · exact (emit_callEvents _ b e row).trans hfinish
    · rfl

theorem onInput_callEvents (signal : Signal) :
    (s.onInput b signal c).control.callEvents = c.callEvents := by
  unfold onInput
  split
  · exact s.project_callEvents b c
  · exact s.groupRow_callEvents b c
  · split
    · rfl
    · split
      · rfl
      · exact s.endGroups_callEvents b c _
  · rfl

theorem begin_callEvents : (Carries.control (s.begin c)).callEvents = c.callEvents := by
  unfold begin
  split
  · rfl
  · have hbounds := s.evalBounds_callEvents c
    generalize s.evalBounds c = r at hbounds ⊢
    rcases r with ⟨_ | b, d⟩
    · exact hbounds
    · simp only
      split <;> exact hbounds

end Selection

namespace Grouping
variable (g : Grouping) (c : Control)

theorem chargeKey_callEvents (key : List Value) :
    (g.chargeKey key c).2.callEvents = c.callEvents := by
  unfold chargeKey
  split
  · exact c.charge_callEvents _
  · rfl

theorem insert_callEvents (key : List Value) :
    (g.insert key c).2.2.callEvents = c.callEvents := by
  have hkey := g.chargeKey_callEvents c key
  unfold insert
  generalize g.chargeKey key c = r at hkey ⊢
  rcases r with ⟨_ | e, d⟩ <;> exact hkey

theorem streamRow_callEvents (key : List Value) :
    (g.streamRow key c).control.callEvents = c.callEvents := by
  unfold streamRow
  split
  · rfl
  · have hinsert := g.insert_callEvents c key
    generalize g.insert key c = r at hinsert ⊢
    rcases r with ⟨_ | e, t, d⟩ <;> exact hinsert

theorem foldRow_callEvents (key partials : List Value) :
    (g.foldRow key partials c).control.callEvents = c.callEvents := by
  unfold foldRow
  split
  · rfl
  · rename_i e _
    rcases mergeAll e.accumulators partials with ⟨_ | failure, accumulators, grown⟩
    · simp only
      split
      · rfl
      · have hcharge := c.charge_callEvents grown
        generalize c.charge grown = r at hcharge ⊢
        rcases r with ⟨_ | e, d⟩ <;> exact hcharge
    · rfl

theorem ensure_callEvents (key : List Value) :
    (g.ensure key c).2.2.callEvents = c.callEvents := by
  unfold ensure
  split
  · rfl
  · exact g.insert_callEvents c key

theorem consume_callEvents : (g.consume c).control.callEvents = c.callEvents := by
  unfold consume
  split
  · split
    · rfl
    · rename_i key _
      split
      · exact g.streamRow_callEvents c key
      · have hensure := g.ensure_callEvents c key
        generalize g.ensure key c = r at hensure ⊢
        rcases r with ⟨_ | e, t, d⟩
        · exact (t.foldRow_callEvents d key _).trans hensure
        · exact hensure
  · rfl

theorem endInput_callEvents : (g.endInput c).control.callEvents = c.callEvents := by
  unfold endInput
  split
  · rfl
  · split
    · have hinsert := g.insert_callEvents c []
      generalize g.insert [] c = r at hinsert ⊢
      rcases r with ⟨_ | e, t, d⟩ <;> exact hinsert
    · rfl

theorem emitNext_callEvents : (g.emitNext c).control.callEvents = c.callEvents := by
  unfold emitNext
  split
  · rfl
  · simp only
    split
    · rfl
    · split <;> rfl

theorem onInput_callEvents (signal : Signal) :
    (g.onInput signal c).control.callEvents = c.callEvents := by
  unfold onInput
  split
  · exact g.consume_callEvents c
  · split
    · rfl
    · exact g.endInput_callEvents c
  · rfl

end Grouping

namespace Sorting
variable (s : Sorting) (c : Control)

theorem emitNext_callEvents (rows : List Value) :
    (s.emitNext rows c).control.callEvents = c.callEvents := by
  cases rows <;> rfl

theorem onInput_callEvents (signal : Signal) :
    (s.onInput signal c).control.callEvents = c.callEvents := by
  unfold onInput
  split
  · have hcharge : (s.chargeRow (c.reg s.inputReg) c).2.callEvents = c.callEvents := by
      unfold chargeRow
      split
      · exact c.charge_callEvents _
      · rfl
    unfold consume
    simp only
    generalize s.chargeRow (c.reg s.inputReg) c = r at hcharge ⊢
    rcases r with ⟨_ | e, d⟩ <;> exact hcharge
  · split <;> rfl
  · rfl

end Sorting

namespace Scan
variable (s : Scan) (c : Control)

theorem yieldRow_callEvents (row : Value) :
    (s.yieldRow row c).control.callEvents = c.callEvents := by
  unfold yieldRow
  split
  · rfl
  · split
    · rfl
    · rfl
    · rename_i cost _ _
      have hcharge := c.charge_callEvents cost
      generalize c.charge cost = r at hcharge ⊢
      rcases r with ⟨_ | e, d⟩ <;> exact hcharge

theorem ask_callEvents (limit : Except QueryError Nat) (request : Nat → FetchRequest) :
    (s.ask c limit request).control.callEvents = c.callEvents := by
  unfold ask
  split
  · rfl
  · cases limit <;> rfl

theorem step_callEvents : (s.step c).control.callEvents = c.callEvents := by
  unfold step
  split
  · rfl
  · unfold stepPlain
    split
    · exact yieldRow_callEvents _ _ _
    · split
      · rfl
      · exact s.ask_callEvents c _ _
  · exact s.ask_callEvents c _ _
  · unfold stepMerge
    split
    · rfl
    · simp only
      split
      · exact yieldRow_callEvents _ _ _
      · split
        · rfl
        · exact s.ask_callEvents c _ _

theorem addVirtualScans_callEvents (scans : List VirtualScan) :
    (s.addVirtualScans c scans).2.2.callEvents = c.callEvents := by
  induction scans generalizing s c with
  | nil => rfl
  | cons scan rest ih =>
    unfold addVirtualScans
    split
    · rfl
    · exact ih _ _

theorem deliver_callEvents (batch : Batch) :
    (s.deliver c batch).2.2.callEvents = c.callEvents := by
  have hcharge := c.charge_callEvents (sizeOfRows batch.rows)
  unfold deliver
  split
  · simp only [stagePlain]
    generalize c.charge (sizeOfRows batch.rows) = r at hcharge ⊢
    rcases r with ⟨_ | e, d⟩ <;> exact hcharge
  · simp only [stagePhase1]
    split
    · rfl
    · generalize c.charge (sizeOfRows batch.rows) = r at hcharge ⊢
      rcases r with ⟨_ | e, d⟩
      · simp only
        split <;> exact hcharge
      · exact hcharge
  · simp only [stageMerge]
    split
    · rfl
    · generalize c.charge (sizeOfRows batch.rows) = r at hcharge ⊢
      rcases r with ⟨_ | e, d⟩
      · exact (addVirtualScans_callEvents _ _ _).trans hcharge
      · exact hcharge
  · rfl

end Scan

namespace Operator

theorem step_callEvents (op : Operator) (c : Control) :
    (op.step c).control.callEvents = c.callEvents := by
  induction op generalizing c with
  | scan s => exact s.step_callEvents c
  | select s input ih =>
    have hbegin := s.begin_callEvents c
    unfold step
    generalize s.begin c = r at hbegin ⊢
    rcases r with done | ⟨b, t, d⟩
    · exact hbegin
    · exact (t.onInput_callEvents b _ _).trans ((ih d).trans hbegin)
  | group g input ih =>
    unfold step
    split
    · rfl
    · exact g.emitNext_callEvents c
    · exact (g.onInput_callEvents _ _).trans (ih c)
  | sort s input ih =>
    unfold step
    split
    · exact s.emitNext_callEvents c _
    · exact (s.onInput_callEvents _ _).trans (ih c)

theorem pull_callEvents (op : Operator) (c : Control) :
    (op.pull c).control.callEvents = c.callEvents := by
  induction hn : op.work using Nat.strongRecOn generalizing op c with
  | ind n ih =>
    rw [pull_eq]
    split
    · rename_i hm
      exact (ih _ (hn ▸ step_work_lt (by rw [hm]; rfl)) _ _ rfl).trans (op.step_callEvents c)
    · exact op.step_callEvents c

theorem deliver_callEvents (op : Operator) (c : Control) (batch : Batch) :
    (op.deliver c batch).2.2.callEvents = c.callEvents := by
  induction op with
  | scan s => exact s.deliver_callEvents c batch
  | select s input ih | group g input ih | sort s input ih => exact ih

theorem close_callEvents (op : Operator) (c : Control) :
    (op.close c).2.callEvents = c.callEvents := by
  induction op generalizing c with
  | scan s => rfl
  | select s input ih => exact ih (s.close c).2
  | group g input ih => exact ih (g.close c).2
  | sort s input ih => exact ih (s.close c).2

end Operator
end ShardQuery
