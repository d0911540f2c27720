import ShardQuery.Operator.Tree

/-!
Operators cannot go on for ever: each step that yields a row or gets on lowers `Operator.work`. So
rows can be pulled until there is one, or until a batch is needed or the rows end.
-/

namespace ShardQuery

/-- The signals after which an operator can be stepped again at once. -/
def Signal.progresses : Signal → Bool
  | .row | .more => true
  | _ => false

/-- An operator that adds at most one for a row of its input counts that input twice, so its work
goes down with that of the input. -/
theorem Signal.work_above {own out below left : Nat} {signal result : Signal}
    (h1 : out ≤ own + if signal = .row then 1 else 0)
    (h2 : result.progresses = true → signal.progresses = false → out < own)
    (h3 : left ≤ below ∧ (signal.progresses = true → left < below)) :
    out + 2 * left ≤ own + 2 * below ∧
      (result.progresses = true → out + 2 * left < own + 2 * below) := by
  obtain ⟨h3, h4⟩ := h3
  cases hp : signal.progresses
  · have hr : signal ≠ .row := by
      rintro rfl
      simp [progresses] at hp
    simp only [hr, ↓reduceIte] at h1
    exact ⟨by omega, fun h => by have := h2 h hp; omega⟩
  · have := h4 hp
    split at h1 <;> exact ⟨by omega, fun _ => by omega⟩

namespace Feed

theorem rows_of_pop? {f g : Feed} {row : Value} (h : f.pop? = some (row, g)) :
    f.rows.length = g.rows.length + 1 := by
  unfold pop? at h
  split at h
  · simp at h
  · simp only [Option.some.injEq, Prod.mk.injEq] at h
    obtain ⟨rfl, rfl⟩ := h
    simp_all

end Feed

namespace Scan

theorem enqueue_work (s : Scan) (f : Feed) :
    (s.enqueue f).work = s.work + (f.rows.length + 1) := by
  have hp : (s.queue.push (Feed.compare s.specs) f).toList.Perm (f :: s.queue.toList) :=
    Heap.push_perm ..
  have := (hp.map fun f => f.rows.length + 1).sum_nat
  simp only [work, enqueue, this, List.map_cons, List.sum_cons]
  omega

/-- Taking a feed off the queue takes away its share of the work. -/
theorem work_of_pop? {s : Scan} {f : Feed} {queue : Heap Feed}
    (h : s.queue.pop? (Feed.compare s.specs) = some (f, queue)) :
    s.work = { s with queue }.work + (f.rows.length + 1) := by
  have := ((Heap.pop?_perm h).map fun f => f.rows.length + 1).sum_nat
  simp only [work, this, List.map_cons, List.sum_cons]
  omega

theorem yieldRow_work (s : Scan) (row : Value) (c : Control) :
    (s.yieldRow row c).state.work = s.work := by
  unfold yieldRow
  split
  · rfl
  · split
    · rfl
    · rfl
    · split <;> rfl

theorem ask_state (s : Scan) (c : Control) (limit : Except QueryError Nat)
    (request : Nat → FetchRequest) : (s.ask c limit request).state = s := by
  unfold ask
  split
  · rfl
  · split <;> rfl

theorem ask_stops (s : Scan) (c : Control) (limit : Except QueryError Nat)
    (request : Nat → FetchRequest) : (s.ask c limit request).signal.progresses = false := by
  unfold ask
  split
  · rfl
  · split <;> rfl

/-- A step of a scan never adds work, and takes some away if the scan gets on. -/
theorem step_work (s : Scan) (c : Control) :
    (s.step c).state.work ≤ s.work ∧
      ((s.step c).signal.progresses = true → (s.step c).state.work < s.work) := by
  unfold step
  split
  · simp [Signal.progresses]
  · unfold stepPlain
    split
    · rename_i h
      have := Feed.rows_of_pop? h
      simp only [yieldRow_work]
      simp only [work]
      omega
    · split
      · simp [Signal.progresses, work]
      · simp [ask_state, ask_stops]
  · simp [ask_state, ask_stops]
  · unfold stepMerge
    split
    · simp [Signal.progresses, work]
    · rename_i top queue hq
      have hw := work_of_pop? hq
      simp only
      split
      · rename_i h
        have := Feed.rows_of_pop? h
        simp only [yieldRow_work]
        split
        · omega
        · rw [enqueue_work]
          omega
      · split
        · exact ⟨by simp only; omega, fun _ => by simp only; omega⟩
        · simp [ask_state, ask_stops]

end Scan

namespace Selection

theorem emit_work (s : Selection) (b : Bounds) (row : Value) (c : Control) :
    (s.emit b row c).state.work = s.work := by
  unfold emit
  split <;> rfl

theorem project_work (s : Selection) (b : Bounds) (c : Control) :
    (s.project b c).state.work = s.work := by
  unfold project
  split
  · exact emit_work ..
  · split
    · rfl
    · exact emit_work ..

theorem finishGroup_work (s : Selection) (key : List Value) (c : Control) :
    (s.finishGroup key c).2.1.work = s.work := by
  unfold finishGroup
  split <;> rfl

theorem finishGroup_finished (s : Selection) (key : List Value) (c : Control) :
    (s.finishGroup key c).2.1.finished = s.finished := by
  unfold finishGroup
  split <;> rfl

theorem finishGroup_current (s : Selection) (key : List Value) (c : Control) :
    (s.finishGroup key c).2.1.current = s.current := by
  unfold finishGroup
  split <;> rfl

theorem foldAndEmit_work (s : Selection) (b : Bounds) (row : Option Value) (c : Control) :
    (s.foldAndEmit b row c).state.work = s.work := by
  unfold foldAndEmit
  simp only
  split
  · rfl
  · rw [emit_work]
    rfl
  · rfl

theorem groupRow_work (s : Selection) (b : Bounds) (c : Control) :
    (s.groupRow b c).state.work ≤ s.work + 1 := by
  unfold groupRow
  simp only
  split
  · simp [work]
  · split
    · rename_i h
      rw [foldAndEmit_work]
      simp [work, h]
    · rename_i h
      split
      · rw [foldAndEmit_work]
        simp [work]
      · split
        · rename_i hf
          have := congrArg (fun p => p.2.1.work) hf
          simp only [finishGroup_work] at this
          rw [← this]
          simp [work, h, Nat.add_assoc]
        · rename_i hf
          have := congrArg (fun p => p.2.1.finished) hf
          simp only [finishGroup_finished] at this
          rw [foldAndEmit_work]
          simp [work, h, ← this]

theorem endGroups_work (s : Selection) (b : Bounds) (gb : Nat) (c : Control)
    (hs : s.finished = false) : (s.endGroups b gb c).state.work < s.work := by
  unfold endGroups
  split
  · rename_i h
    split
    · rename_i hf
      have := congrArg (fun p => p.2.1.current) hf
      simp only [finishGroup_current] at this
      simp [work, h, hs, ← this]
    · rename_i hf
      have := congrArg (fun p => p.2.1.current) hf
      simp only [finishGroup_current] at this
      rw [emit_work]
      simp only [work, h, hs, ← this]
      split <;> simp
  · rename_i h
    split
    · split
      · rename_i hf
        have := congrArg (fun p => p.2.1.current) hf
        simp only [finishGroup_current] at this
        simp [work, h, hs, ← this]
      · rename_i hf
        have := congrArg (fun p => p.2.1.current) hf
        simp only [finishGroup_current] at this
        rw [emit_work]
        simp [work, h, hs, ← this]
    · simp [work, h, hs]

/-- What a selection does with the step of its input: it adds one at most, and nothing unless the
input has a row. -/
theorem onInput_work (s : Selection) (b : Bounds) (signal : Signal) (c : Control)
    (hs : s.finished = false) :
    (s.onInput b signal c).state.work ≤ s.work + (if signal = .row then 1 else 0) ∧
      ((s.onInput b signal c).signal.progresses = true → signal.progresses = false →
        (s.onInput b signal c).state.work < s.work) := by
  unfold onInput
  split
  · simp [project_work, Signal.progresses]
  · simp [groupRow_work, Signal.progresses]
  · split
    · simp [Signal.progresses]
    · split
      · simp [work, Signal.progresses]
      · rename_i gb _
        have := endGroups_work s b gb c hs
        simp only [reduceCtorEq, ↓reduceIte]
        exact ⟨by omega, fun _ _ => this⟩
  · rename_i h1 h2 h3
    simp_all

theorem begin_stop {s : Selection} {c : Control} {r : Step Selection} (h : s.begin c = .inl r) :
    r.state.work ≤ s.work ∧ r.signal.progresses = false := by
  unfold begin at h
  split at h
  · simp only [Sum.inl.injEq] at h
    simp [← h, Signal.progresses]
  · split at h
    · simp only [Sum.inl.injEq] at h
      simp [← h, Signal.progresses]
    · simp only at h
      split at h
      · simp only [Sum.inl.injEq] at h
        simp [← h, Signal.progresses, work]
      · simp at h

theorem begin_ready {s t : Selection} {b : Bounds} {c d : Control}
    (h : s.begin c = .inr (b, t, d)) : t.work = s.work ∧ t.finished = false := by
  unfold begin at h
  split at h
  · simp at h
  · split at h
    · simp at h
    · simp only at h
      split at h
      · simp at h
      · simp only [Sum.inr.injEq, Prod.mk.injEq] at h
        obtain ⟨-, rfl, -⟩ := h
        simp_all [work]

end Selection

namespace Grouping

theorem insert_phase (g : Grouping) (key : List Value) (c : Control) :
    (g.insert key c).2.1.phase = g.phase := by
  unfold insert
  split <;> rfl

theorem insert_work (g : Grouping) (key : List Value) (c : Control) :
    (g.insert key c).2.1.work ≤ g.work + 1 := by
  unfold insert
  split
  · exact Nat.le_succ _
  · by_cases hs : g.streams = true
    · simp [work, added, hs]
    · simp only [work, added, hs, Bool.false_eq_true, ↓reduceIte, List.length_append,
        List.length_singleton]
      omega

/-- Where tuples are emitted as they come, none is left for later. -/
theorem insert_work_of_streams (g : Grouping) (hs : g.streams = true) (key : List Value)
    (c : Control) : (g.insert key c).2.1.work = g.work := by
  unfold insert
  split
  · rfl
  · simp [work, added, hs]

theorem ensure_work (g : Grouping) (key : List Value) (c : Control) :
    (g.ensure key c).2.1.work ≤ g.work + 1 := by
  unfold ensure
  split
  · exact Nat.le_succ _
  · exact insert_work g key c

theorem foldRow_work (g : Grouping) (key partials : List Value) (c : Control) :
    (g.foldRow key partials c).state.work = g.work := by
  unfold foldRow
  split
  · rfl
  · simp only
    split
    · simp [work]
    · split
      · simp [work]
      · split <;> simp [work]

theorem streamRow_work (g : Grouping) (hs : g.streams = true) (key : List Value) (c : Control) :
    (g.streamRow key c).state.work = g.work := by
  have h := g.insert_work_of_streams hs key c
  unfold streamRow
  split
  · rfl
  · split <;> rename_i he <;> rwa [he] at h

theorem consume_work (g : Grouping) (c : Control) : (g.consume c).state.work ≤ g.work + 1 := by
  unfold consume
  split
  · split
    · simp
    · rename_i key _
      split
      · rename_i hs
        rw [streamRow_work g hs]
        exact Nat.le_succ _
      · have := ensure_work g key c
        split <;> simp_all [foldRow_work]
  · simp

theorem endInput_work (g : Grouping) (c : Control) (hg : g.phase = .consuming) :
    (g.endInput c).state.work ≤ g.work ∧
      ((g.endInput c).signal.progresses = true → (g.endInput c).state.work < g.work) := by
  unfold endInput
  split
  · simp [work, Signal.progresses]
  · split
    · have h1 := insert_work g [] c
      have h2 := insert_phase g [] c
      split
      · rename_i he
        -- a refused charge leaves the groups as they were
        unfold insert at he
        split at he
        · cases he
          simp [Signal.progresses]
        · cases he
      · rename_i he
        simp only [he] at h1 h2
        simp only [work, h2, hg, ↓reduceIte] at h1 ⊢
        simp
        omega
    · simp [work, hg]

theorem emitNext_work (g : Grouping) (c : Control) (hg : g.phase ≠ .consuming) :
    (g.emitNext c).state.work ≤ g.work ∧
      ((g.emitNext c).signal.progresses = true → (g.emitNext c).state.work < g.work) := by
  unfold emitNext
  split
  · simp_all [work, Signal.progresses]
  · simp only
    split
    · simp_all [work, Signal.progresses]
    · split <;> simp_all [work, removed]

theorem onInput_work (g : Grouping) (signal : Signal) (c : Control) (hg : g.phase = .consuming) :
    (g.onInput signal c).state.work ≤ g.work + (if signal = .row then 1 else 0) ∧
      ((g.onInput signal c).signal.progresses = true → signal.progresses = false →
        (g.onInput signal c).state.work < g.work) := by
  unfold onInput
  split
  · simp [consume_work, Signal.progresses]
  · split
    · simp [Signal.progresses]
    · have := endInput_work g c hg
      simp only [reduceCtorEq, ↓reduceIte]
      exact ⟨by omega, fun h _ => this.2 h⟩
  · simp_all

end Grouping

namespace Sorting

theorem onInput_work (s : Sorting) (signal : Signal) (c : Control) (hs : s.sorted = none) :
    (s.onInput signal c).state.work ≤ s.work + (if signal = .row then 1 else 0) ∧
      ((s.onInput signal c).signal.progresses = true → signal.progresses = false →
        (s.onInput signal c).state.work < s.work) := by
  unfold onInput
  split
  · unfold consume
    simp only
    split <;> simp [work, rows, Signal.progresses]
    omega
  · split
    · simp [Signal.progresses]
    · simp [endInput, work, rows, hs, sortRows]
  · simp_all

theorem emitNext_work (s : Sorting) (out : List Value) (c : Control) (hs : s.sorted = some out) :
    (s.emitNext out c).state.work ≤ s.work ∧
      ((s.emitNext out c).signal.progresses = true → (s.emitNext out c).state.work < s.work) := by
  unfold emitNext
  split <;> simp [work, rows, hs, Signal.progresses]

end Sorting

namespace Operator

/-- A step never adds work, and takes some away if the operator gets on. -/
theorem step_work (op : Operator) (c : Control) :
    (op.step c).state.work ≤ op.work ∧
      ((op.step c).signal.progresses = true → (op.step c).state.work < op.work) := by
  induction op generalizing c with
  | scan s => exact Scan.step_work s c
  | select s input ih =>
    unfold step
    split
    · rename_i h
      have := Selection.begin_stop h
      simp_all [Step.map, work]
    · rename_i b t d h
      have h1 := Selection.begin_ready h
      have h2 := Selection.onInput_work t b (input.step d).signal (input.step d).control h1.2
      rw [h1.1] at h2
      exact Signal.work_above h2.1 h2.2 (ih d)
  | group g input ih =>
    unfold step
    split
    · simp [Signal.progresses]
    · rename_i h
      have := Grouping.emitNext_work g c (by simp [h])
      simp only [Step.map, work]
      exact ⟨by omega, fun h => by have := this.2 h; omega⟩
    · rename_i h
      have h2 := Grouping.onInput_work g (input.step c).signal (input.step c).control h
      exact Signal.work_above h2.1 h2.2 (ih c)
  | sort s input ih =>
    unfold step
    split
    · rename_i out h
      have := Sorting.emitNext_work s out c h
      simp only [Step.map, work]
      exact ⟨by omega, fun h => by have := this.2 h; omega⟩
    · rename_i h
      have h2 := Sorting.onInput_work s (input.step c).signal (input.step c).control h
      exact Signal.work_above h2.1 h2.2 (ih c)

theorem step_work_lt {op : Operator} {c : Control}
    (h : (op.step c).signal.progresses = true) : (op.step c).state.work < op.work :=
  (op.step_work c).2 h

/-- Steps until there is a row, a batch is needed, the rows end or something fails. -/
def pull (op : Operator) (c : Control) : Step Operator :=
  let s := op.step c
  if _ : s.signal = .more then pull s.state s.control else s
termination_by op.work
decreasing_by
  rename_i h
  exact step_work_lt (by rw [show (op.step c).signal = .more from h]; rfl)

theorem pull_eq (op : Operator) (c : Control) :
    op.pull c = if (op.step c).signal = .more then (op.step c).state.pull (op.step c).control
      else op.step c := by
  rw [pull]
  simp

theorem pull_work (op : Operator) (c : Control) :
    (op.pull c).state.work ≤ op.work ∧
      ((op.pull c).signal = .row → (op.pull c).state.work < op.work) := by
  induction h : op.work using Nat.strongRecOn generalizing op c with
  | ind n ih =>
    rw [pull_eq]
    have hw := step_work op c
    split
    · rename_i hm
      have hlt := hw.2 (by rw [hm]; rfl)
      have := ih _ (by omega) (op.step c).state (op.step c).control rfl
      exact ⟨by omega, fun hr => by have := this.2 hr; omega⟩
    · exact ⟨by omega, fun hr => by have := hw.2 (by rw [hr]; rfl); omega⟩

end Operator
end ShardQuery
