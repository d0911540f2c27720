import ShardQuery.Proofs.Operator.Frame

/-! Whatever an operator does with a row, it keeps to the registers, the budget and the log. -/

namespace ShardQuery

namespace Control

theorem charge_framed (n : Nat) : Framed (charge · n) where
  frame c φ := by
    simp only [charge, within]
    split <;> rfl
  settings c := by
    simp only [charge]
    split
    · rename_i h
      obtain ⟨-, rfl⟩ := Ledger.charge_eq_ok_iff.1 h
      rfl
    · rfl

end Control

theorem Scalar.run_framed (s : Scalar) : Framed s.run := ⟨fun _ _ => rfl, fun _ => rfl⟩

namespace Column

theorem run_framed (col : Column) : Framed col.run := by
  cases col with
  | scalar s => exact s.run_framed
  | aggregate r input acc => exact ⟨fun _ _ => rfl, fun _ => rfl⟩

theorem read_framed (col : Column) : Framed col.read := by
  apply Framed.of_runs
  intro c φ
  obtain ⟨hr, hs⟩ := col.run_framed.run c φ
  simp only [read, hr]
  generalize col.run c = r at hs ⊢
  rcases r with ⟨_ | _ | _, d⟩ <;> exact ⟨rfl, hs⟩

theorem inputValue_framed (input : Option Scalar) : Framed (inputValue input) := by
  cases input with
  | none => exact .pure _
  | some s =>
    apply Framed.of_runs
    intro c φ
    obtain ⟨hr, hs⟩ := s.run_framed.run c φ
    simp only [inputValue, hr]
    generalize s.run c = r at hs ⊢
    rcases r with ⟨_ | _ | _, d⟩ <;> exact ⟨rfl, hs⟩

theorem fold_framed (col : Column) : Framed col.fold := by
  cases col with
  | scalar s => exact .pure _
  | aggregate r input acc =>
    apply Framed.of_runs
    intro c φ
    obtain ⟨hr, hs⟩ := (inputValue_framed input).run c φ
    simp only [fold, hr]
    generalize inputValue input c = r at hs ⊢
    rcases r with ⟨_ | _, d⟩ <;> exact ⟨rfl, hs⟩

end Column

namespace Selection
variable (s : Selection)

theorem evalBound_framed (clause : String) (bound : Option Scalar) :
    Framed (evalBound clause bound) := by
  cases bound with
  | none => exact .pure _
  | some e =>
    apply Framed.of_runs
    intro c φ
    obtain ⟨hr, hs⟩ := e.run_framed.run c φ
    simp only [evalBound, hr]
    generalize e.run c = r at hs ⊢
    rcases r with ⟨_ | _ | _, d⟩
    · exact ⟨rfl, hs⟩
    · exact ⟨rfl, hs⟩
    · simp only [Carries.onControl, Control.reg_within]
      split
      · split <;> exact ⟨rfl, hs⟩
      · exact ⟨rfl, hs⟩

theorem evalBounds_framed : Framed s.evalBounds := by
  apply Framed.of_runs
  intro c φ
  simp only [evalBounds]
  split
  · exact ⟨rfl, rfl⟩
  · obtain ⟨hr, hs⟩ := (evalBound_framed "OFFSET" s.offset).run c φ
    simp only [hr]
    generalize evalBound "OFFSET" s.offset c = r at hs ⊢
    rcases r with ⟨_ | _, d⟩
    · exact ⟨rfl, hs⟩
    · obtain ⟨hl, ht⟩ := (evalBound_framed "LIMIT" s.limit).run d φ
      simp only [Carries.onControl, hl]
      generalize evalBound "LIMIT" s.limit d = r at ht ⊢
      rcases r with ⟨_ | _, e⟩ <;> exact ⟨rfl, ht.trans hs⟩

theorem emit_framed (b : Bounds) (row : Value) : Framed (s.emit b row) := by
  apply Framed.of_runs
  intro c φ
  simp only [emit]
  split <;> exact ⟨rfl, rfl⟩

theorem readColumns_framed (cols : List Column) : Framed (readColumns cols) := by
  induction cols with
  | nil => exact .pure _
  | cons col rest ih =>
    apply Framed.of_runs
    intro c φ
    obtain ⟨hr, hs⟩ := col.read_framed.run c φ
    simp only [readColumns, hr]
    generalize col.read c = r at hs ⊢
    rcases r with ⟨_ | _, d⟩
    · exact ⟨rfl, hs⟩
    · obtain ⟨hi, ht⟩ := ih.run d φ
      simp only [Carries.onControl, hi]
      generalize readColumns rest d = r at ht ⊢
      rcases r with ⟨_ | _, e⟩ <;> exact ⟨rfl, ht.trans hs⟩

theorem project_framed (b : Bounds) : Framed (s.project b) := by
  apply Framed.of_runs
  intro c φ
  simp only [project]
  split
  · exact (s.emit_framed b _).run c φ
  · obtain ⟨hr, hs⟩ := (readColumns_framed (s.columns.take s.names.length)).run c φ
    simp only [hr]
    generalize readColumns (s.columns.take s.names.length) c = r at hs ⊢
    rcases r with ⟨_ | _, d⟩
    · exact ⟨rfl, hs⟩
    · exact ((s.emit_framed b _).run d φ).after hs

/-- The growth of a column is charged, unless there is none. -/
theorem chargeGrowth_framed (grown : Nat) :
    Framed fun c => if grown = 0 then (none, c) else c.charge grown := by
  by_cases hg : grown = 0
  · simp only [hg, ↓reduceIte]
    exact .pure _
  · simp only [hg, ↓reduceIte]
    exact Control.charge_framed grown

theorem foldRow_framed (cols : List Column) (memory : Nat) : Framed (foldRow cols memory) := by
  induction cols generalizing memory with
  | nil => exact ⟨fun _ _ => rfl, fun _ => rfl⟩
  | cons col rest ih =>
    apply Framed.of_runs
    intro c φ
    obtain ⟨hf, hs⟩ := col.fold_framed.run c φ
    simp only [foldRow, hf]
    generalize col.fold c = r at hs ⊢
    rcases r with ⟨_ | ⟨grown, col⟩, d⟩
    · exact ⟨rfl, hs⟩
    · obtain ⟨hg, ht⟩ := (chargeGrowth_framed grown).run d φ
      simp only [Carries.onControl] at hg ⊢
      simp only [hg]
      generalize (if grown = 0 then (none, d) else d.charge grown) = r at ht ⊢
      rcases r with ⟨_ | e, d'⟩
      · obtain ⟨hi, hu⟩ := (ih (memory + grown)).run d' φ
        simp only [hi]
        exact ⟨rfl, hu.trans (ht.trans hs)⟩
      · exact ⟨rfl, ht.trans hs⟩

theorem finishGroup_framed (key : List Value) : Framed (s.finishGroup key) := by
  apply Framed.of_runs
  intro c φ
  simp only [finishGroup]
  split <;> exact ⟨rfl, rfl⟩

theorem foldAndEmit_framed (b : Bounds) (row : Option Value) : Framed (s.foldAndEmit b row) := by
  apply Framed.of_runs
  intro c φ
  obtain ⟨hf, hs⟩ := (foldRow_framed s.aggregates s.groupMemory).run c φ
  simp only [foldAndEmit, hf]
  generalize foldRow s.aggregates s.groupMemory c = r at hs ⊢
  rcases r with ⟨_ | e, aggregates, memory, d⟩
  · cases row with
    | none => exact ⟨rfl, hs⟩
    | some row => exact ((emit_framed _ b row).run d φ).after hs
  · exact ⟨rfl, hs⟩

theorem groupRow_framed (b : Bounds) : Framed (s.groupRow b) := by
  apply Framed.of_runs
  intro c φ
  obtain ⟨hr, hs⟩ := (readColumns_framed s.columns).run c φ
  simp only [groupRow, hr]
  generalize readColumns s.columns c = r at hs ⊢
  rcases r with ⟨_ | key, d⟩
  · exact ⟨rfl, hs⟩
  simp only [Carries.onControl]
  cases hc : s.current with
  | none => exact ((foldAndEmit_framed _ b none).run d φ).after hs
  | some current =>
    simp only
    split
    · exact ((foldAndEmit_framed _ b none).run d φ).after hs
    · obtain ⟨hf, ht⟩ :=
        (finishGroup_framed { s with sawInput := true, current := none } current).run d φ
      simp only [hf]
      generalize finishGroup _ current d = r at ht ⊢
      rcases r with ⟨_ | row, t, e⟩
      · exact ⟨rfl, ht.trans hs⟩
      · exact ((foldAndEmit_framed _ b _).run e φ).after (ht.trans hs)

theorem endGroups_framed (b : Bounds) (gb : Nat) : Framed (s.endGroups b gb) := by
  apply Framed.of_runs
  intro c φ
  simp only [endGroups]
  cases hc : s.current with
  | some current =>
    obtain ⟨hf, hs⟩ := (finishGroup_framed { s with current := none } current).run c φ
    simp only [hf]
    generalize finishGroup _ current c = r at hs ⊢
    rcases r with ⟨_ | row, t, e⟩
    · exact ⟨rfl, hs⟩
    · exact ((emit_framed _ b row).run e φ).after hs
  | none =>
    obtain ⟨hf, hs⟩ := (finishGroup_framed s []).run c φ
    simp only [hf]
    split
    · generalize finishGroup s _ c = r at hs ⊢
      rcases r with ⟨_ | row, t, e⟩
      · exact ⟨rfl, hs⟩
      · exact ((emit_framed _ b row).run e φ).after hs
    · exact ⟨rfl, rfl⟩

theorem begin_framed : Framed s.begin := by
  apply Framed.of_runs
  intro c φ
  simp only [begin]
  split
  · exact ⟨rfl, rfl⟩
  · obtain ⟨hr, hs⟩ := s.evalBounds_framed.run c φ
    simp only [hr]
    generalize s.evalBounds c = r at hs ⊢
    rcases r with ⟨_ | b, d⟩
    · exact ⟨rfl, hs⟩
    · simp only [Carries.onControl]
      split <;> exact ⟨rfl, hs⟩

end Selection

namespace Grouping
variable (g : Grouping)

theorem chargeKey_framed (key : List Value) : Framed (g.chargeKey key) := by
  unfold chargeKey
  split
  · exact Control.charge_framed _
  · exact .pure _

theorem insert_framed (key : List Value) : Framed (g.insert key) := by
  apply Framed.of_runs
  intro c φ
  obtain ⟨hk, hs⟩ := (g.chargeKey_framed key).run c φ
  simp only [insert, hk]
  generalize g.chargeKey key c = r at hs ⊢
  rcases r with ⟨_ | e, d⟩ <;> exact ⟨rfl, hs⟩

theorem streamRow_framed (key : List Value) : Framed (g.streamRow key) := by
  apply Framed.of_runs
  intro c φ
  simp only [streamRow]
  split
  · exact ⟨rfl, rfl⟩
  · obtain ⟨hk, hs⟩ := (g.insert_framed key).run c φ
    simp only [hk]
    generalize g.insert key c = r at hs ⊢
    rcases r with ⟨_ | e, t, d⟩ <;> exact ⟨rfl, hs⟩

theorem foldRow_framed (key partials : List Value) : Framed (g.foldRow key partials) := by
  apply Framed.of_runs
  intro c φ
  simp only [foldRow]
  split
  · exact ⟨rfl, rfl⟩
  · rename_i e _
    rcases mergeAll e.accumulators partials with ⟨_ | failure, accumulators, grown⟩
    · simp only
      split
      · exact ⟨rfl, rfl⟩
      · obtain ⟨hc, hs⟩ := (Control.charge_framed grown).run c φ
        simp only [hc]
        generalize c.charge grown = r at hs ⊢
        rcases r with ⟨_ | e, d⟩ <;> exact ⟨rfl, hs⟩
    · exact ⟨rfl, rfl⟩

theorem ensure_framed (key : List Value) : Framed (g.ensure key) := by
  unfold ensure
  split
  · exact ⟨fun _ _ => rfl, fun _ => rfl⟩
  · exact g.insert_framed key

theorem consume_framed : Framed g.consume := by
  apply Framed.of_runs
  intro c φ
  simp only [consume, Control.reg_within]
  split
  · split
    · exact ⟨rfl, rfl⟩
    · rename_i key _
      split
      · exact (g.streamRow_framed key).run c φ
      · obtain ⟨he, hs⟩ := (g.ensure_framed key).run c φ
        simp only [he]
        generalize g.ensure key c = r at hs ⊢
        rcases r with ⟨_ | e, t, d⟩
        · exact ((t.foldRow_framed key _).run d φ).after hs
        · exact ⟨rfl, hs⟩
  · exact ⟨rfl, rfl⟩

theorem endInput_framed : Framed g.endInput := by
  apply Framed.of_runs
  intro c φ
  simp only [endInput]
  split
  · exact ⟨rfl, rfl⟩
  · split
    · obtain ⟨he, hs⟩ := (g.insert_framed []).run c φ
      simp only [he]
      generalize g.insert [] c = r at hs ⊢
      rcases r with ⟨_ | e, t, d⟩ <;> exact ⟨rfl, hs⟩
    · exact ⟨rfl, rfl⟩

theorem emitNext_framed : Framed g.emitNext := by
  apply Framed.of_runs
  intro c φ
  simp only [emitNext]
  split
  · exact ⟨rfl, rfl⟩
  · split
    · exact ⟨rfl, rfl⟩
    · split <;> exact ⟨rfl, rfl⟩

end Grouping

namespace Sorting
variable (s : Sorting)

theorem chargeRow_framed (row : Value) : Framed (s.chargeRow row) := by
  unfold chargeRow
  split
  · exact Control.charge_framed _
  · exact .pure _

theorem consume_framed : Framed s.consume := by
  apply Framed.of_runs
  intro c φ
  obtain ⟨hr, hs⟩ := (s.chargeRow_framed (c.reg s.inputReg)).run c φ
  simp only [consume, Control.reg_within, hr]
  generalize s.chargeRow (c.reg s.inputReg) c = r at hs ⊢
  rcases r with ⟨_ | e, d⟩ <;> exact ⟨rfl, hs⟩

theorem endInput_framed : Framed s.endInput := ⟨fun _ _ => rfl, fun _ => rfl⟩

theorem emitNext_framed (rows : List Value) : Framed (s.emitNext rows) := by
  cases rows with
  | nil => exact ⟨fun _ _ => rfl, fun _ => rfl⟩
  | cons row rest => exact ⟨fun _ _ => rfl, fun _ => rfl⟩

end Sorting

namespace Scan
variable (s : Scan)

theorem yieldRow_framed (row : Value) : Framed (s.yieldRow row) := by
  unfold yieldRow
  split
  · exact ⟨fun _ _ => rfl, fun _ => rfl⟩
  · rename_i d _
    split
    · exact ⟨fun _ _ => rfl, fun _ => rfl⟩
    · exact ⟨fun _ _ => rfl, fun _ => rfl⟩
    · rename_i cost _ _
      apply Framed.of_runs
      intro c φ
      obtain ⟨hc, hs⟩ := (Control.charge_framed cost).run c φ
      simp only [hc]
      generalize c.charge cost = r at hs ⊢
      rcases r with ⟨_ | e, d⟩ <;> exact ⟨rfl, hs⟩

theorem stagePlain_framed (batch : Batch) : Framed (s.stagePlain · batch) := by
  apply Framed.of_runs
  intro c φ
  obtain ⟨hc, hs⟩ := (Control.charge_framed (sizeOfRows batch.rows)).run c φ
  simp only [stagePlain, hc]
  generalize c.charge (sizeOfRows batch.rows) = r at hs ⊢
  rcases r with ⟨_ | e, d⟩ <;> exact ⟨rfl, hs⟩

theorem stagePhase1_framed (batch : Batch) : Framed (s.stagePhase1 · batch) := by
  apply Framed.of_runs
  intro c φ
  obtain ⟨hc, hs⟩ := (Control.charge_framed (sizeOfRows batch.rows)).run c φ
  simp only [stagePhase1, hc]
  rcases s.checkPhase1 batch with _ | info
  · exact ⟨rfl, rfl⟩
  generalize c.charge (sizeOfRows batch.rows) = r at hs ⊢
  rcases r with ⟨_ | e, d⟩
  · simp only [Carries.onControl]
    split <;> exact ⟨rfl, hs⟩
  · exact ⟨rfl, hs⟩

theorem addVirtualScans_framed (scans : List VirtualScan) :
    Framed (s.addVirtualScans · scans) := by
  induction scans generalizing s with
  | nil => exact ⟨fun _ _ => rfl, fun _ => rfl⟩
  | cons scan rest ih =>
    apply Framed.of_runs
    intro c φ
    simp only [addVirtualScans, Control.within_emit]
    split
    · exact ⟨rfl, rfl⟩
    · exact ((ih _).run _ φ).after rfl

theorem stageMerge_framed (batch : Batch) : Framed (s.stageMerge · batch) := by
  apply Framed.of_runs
  intro c φ
  obtain ⟨hc, hs⟩ := (Control.charge_framed (sizeOfRows batch.rows)).run c φ
  simp only [stageMerge, hc]
  split
  · exact ⟨rfl, rfl⟩
  · generalize c.charge (sizeOfRows batch.rows) = r at hs ⊢
    rcases r with ⟨_ | e, d⟩
    · exact ((addVirtualScans_framed _ _).run d φ).after hs
    · exact ⟨rfl, hs⟩

theorem deliver_framed (batch : Batch) : Framed (s.deliver · batch) := by
  unfold deliver
  split
  · exact s.stagePlain_framed batch
  · exact s.stagePhase1_framed batch
  · exact s.stageMerge_framed batch
  · exact ⟨fun _ _ => rfl, fun _ => rfl⟩

end Scan

/-- Taking in a batch is up to the scan at the bottom. -/
theorem Operator.deliver_framed (op : Operator) (batch : Batch) :
    Framed (op.deliver · batch) := by
  induction op with
  | scan s =>
    have h := s.deliver_framed batch
    exact ⟨fun c φ => by simp only [deliver, h.frame]; rfl, h.settings⟩
  | select s input ih =>
    exact ⟨fun c φ => by simp only [deliver, ih.frame]; rfl, ih.settings⟩
  | group g input ih =>
    exact ⟨fun c φ => by simp only [deliver, ih.frame]; rfl, ih.settings⟩
  | sort s input ih =>
    exact ⟨fun c φ => by simp only [deliver, ih.frame]; rfl, ih.settings⟩

theorem Operator.close_framed (op : Operator) : Framed op.close := by
  induction op with
  | scan s => exact ⟨fun _ _ => rfl, fun _ => rfl⟩
  | select s input ih =>
    have hi (t : Selection) : Framed fun c => (Operator.select t (input.close c).1,
        (input.close c).2) :=
      ⟨fun c φ => by simp only [ih.frame]; rfl, ih.settings⟩
    exact .bind (f := s.close) ⟨fun _ _ => rfl, fun _ => rfl⟩ hi
  | group g input ih =>
    have hi (t : Grouping) : Framed fun c => (Operator.group t (input.close c).1,
        (input.close c).2) :=
      ⟨fun c φ => by simp only [ih.frame]; rfl, ih.settings⟩
    exact .bind (f := g.close) ⟨fun _ _ => rfl, fun _ => rfl⟩ hi
  | sort s input ih =>
    have hi (t : Sorting) : Framed fun c => (Operator.sort t (input.close c).1,
        (input.close c).2) :=
      ⟨fun c φ => by simp only [ih.frame]; rfl, ih.settings⟩
    exact .bind (f := s.close) ⟨fun _ _ => rfl, fun _ => rfl⟩ hi

end ShardQuery
