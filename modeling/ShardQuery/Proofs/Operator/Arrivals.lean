import ShardQuery.Operator.Progress
import ShardQuery.Proofs.Operator.Selecting

/-!
A select step on top of an input of which all is known beforehand: the rows that it hands on, what
it does besides, and where its calls end.
-/

namespace ShardQuery

/-- A row that an input hands on. -/
structure InputRow where
  row : Value
  /-- What else the input put into registers before. -/
  writes : List (Nat × Value) := []
  /-- What the input did to the budget. -/
  budget : Ledger → Ledger := id

/-- What an input does in one step. -/
inductive InputEvent where
  | row (a : InputRow)
  /-- It got on, but has no row yet. -/
  | more
  /-- It goes on in the next call. -/
  | pause

namespace InputEvent

/-- The rows that are handed on, whatever happens between them. -/
def rows : List InputEvent → List InputRow
  | [] => []
  | .row a :: rest => a :: rows rest
  | .more :: rest | .pause :: rest => rows rest

end InputEvent

/-- The control when a row has arrived in a register. -/
def Control.arrive (c : Control) (reg : Nat) (a : InputRow) : Control :=
  { c with
    registers := (a.writes.foldl (fun regs w => regs.set w.1 w.2) c.registers).set reg a.row
    ledger := a.budget c.ledger }

/-- One step of an input that does just what is told. -/
def InputEvent.play (reg : Nat) : List InputEvent → Control → Step (List InputEvent)
  | [], c => ⟨.dry, [], c⟩
  | .row a :: rest, c => ⟨.row, rest, c.arrive reg a⟩
  | .more :: rest, c => ⟨.more, rest, c⟩
  | .pause :: rest, c => ⟨.dry, rest, c.suspend⟩

theorem Agree.arrive {P : Nat → Prop} {c d : Control} (h : c.Alike P d) (reg : Nat) (a : InputRow) :
    (c.arrive reg a).Alike (fun r => P r ∨ r = reg) (d.arrive reg a) := by
  refine ⟨h.externals, congrArg a.budget h.ledger, Agree.set ?_ reg a.row⟩
  have hr := h.registers
  generalize c.registers = regs at hr
  generalize d.registers = regs' at hr
  induction a.writes generalizing regs regs' with
  | nil => exact hr
  | cons w rest ih => exact ih _ _ (hr.set_same w.1 w.2)

theorem Control.arrive_size (c : Control) (reg : Nat) (a : InputRow) :
    (c.arrive reg a).size = c.size := by
  have h (ws : List (Nat × Value)) (regs : List Value) :
      (ws.foldl (fun regs w => regs.set w.1 w.2) regs).length = regs.length := by
    induction ws generalizing regs with
    | nil => rfl
    | cons w ws ih => rw [List.foldl_cons, ih, List.length_set]
  rw [size, arrive, List.length_set, h]
  rfl

theorem Control.arrive_reg {r : Nat} (c : Control) (hr : r < c.size) (a : InputRow) :
    (c.arrive r a).reg r = a.row := by
  have hsize : (c.arrive r { a with row := .empty }).size = c.size := c.arrive_size ..
  have h := Control.setReg_reg (hsize.symm ▸ hr) a.row
  rwa [Control.setReg, Control.arrive, List.set_set] at h

namespace Selection

/-- One step of a select step on top of any input. -/
def stepOver {σ : Type} (next : σ → Control → Step σ) (s : Selection) (i : σ) (c : Control) :
    Step (Selection × σ) :=
  match s.begin c with
  | .inl done => done.map (·, i)
  | .inr (b, s, c) =>
    let r := next i c
    (s.onInput b r.signal r.control).map (·, r.state)

/-- The operators of a query step in this way. -/
theorem step_select (s : Selection) (input : Operator) (c : Control) :
    (Operator.select s input).step c =
      (s.stepOver Operator.step input c).map fun p => .select p.1 p.2 := by
  unfold stepOver
  rw [Operator.step.eq_def]
  simp only
  cases s.begin c <;> rfl

/-- One step on top of an input that is told. -/
def stepOn (s : Selection) (t : List InputEvent) (c : Control) :
    Step (Selection × List InputEvent) :=
  s.stepOver (InputEvent.play s.sourceReg) t c

/-- The rows that come out until there are no more, over as many calls as the input takes. -/
inductive Yields : Selection → List InputEvent → Control → List Value → Prop
  | dry {s p : Selection} {t u : List InputEvent} {c d : Control} :
    s.stepOn t c = ⟨.dry, (p, u), d⟩ → d.needsContinuation = false → Yields s t c []
  | pause {s p : Selection} {t u : List InputEvent} {c d : Control} {rows : List Value} :
    s.stepOn t c = ⟨.dry, (p, u), d⟩ → d.needsContinuation = true →
      Yields p u d.beginCall rows → Yields s t c rows
  | more {s p : Selection} {t u : List InputEvent} {c d : Control} {rows : List Value} :
    s.stepOn t c = ⟨.more, (p, u), d⟩ → Yields p u d rows → Yields s t c rows
  | row {s p : Selection} {t u : List InputEvent} {c d : Control} {rows : List Value} :
    s.stepOn t c = ⟨.row, (p, u), d⟩ → Yields p u d rows → Yields s t c (d.reg p.reg :: rows)

/-- What follows a step. -/
def Follows (r : Step (Selection × List InputEvent)) (rows : List Value) : Prop :=
  match r with
  | ⟨.dry, (p, u), d⟩ =>
    if d.needsContinuation then p.Yields u d.beginCall rows else rows = []
  | ⟨.more, (p, u), d⟩ => p.Yields u d rows
  | ⟨.row, (p, u), d⟩ => ∃ rest, rows = d.reg p.reg :: rest ∧ p.Yields u d rest
  | ⟨.request _, _, _⟩ | ⟨.fail _, _, _⟩ => False

section
variable {s p : Selection} {t : List InputEvent} {c d : Control} {rows rows' : List Value}

theorem yields_iff : s.Yields t c rows ↔ Follows (s.stepOn t c) rows := by
  constructor
  · intro h
    cases h with
    | dry h hd => simp [h, Follows, hd]
    | pause h hd hy => simpa [h, Follows, hd] using hy
    | more h hy =>
      rw [h]
      exact hy
    | row h hy =>
      rw [h]
      exact ⟨_, rfl, hy⟩
  · intro h
    generalize hr : s.stepOn t c = r at h
    obtain ⟨signal, ⟨p, u⟩, d⟩ := r
    cases signal with
    | dry =>
      simp only [Follows] at h
      split at h
      · rename_i hd
        exact .pause hr hd h
      · rename_i hd
        rw [h]
        exact .dry hr (Bool.not_eq_true _ ▸ hd)
    | more => exact .more hr h
    | row =>
      obtain ⟨rest, rfl, hy⟩ := h
      exact .row hr hy
    | request r => exact h.elim
    | fail e => exact h.elim

/-- What comes out is settled by the input. -/
theorem Yields.unique (h : s.Yields t c rows) (h' : s.Yields t c rows') : rows = rows' := by
  induction h generalizing rows' with
  | dry hs hd =>
    rw [yields_iff, hs] at h'
    simpa [Follows, hd, eq_comm] using h'
  | pause hs hd _ ih =>
    rw [yields_iff, hs] at h'
    exact ih (by simpa [Follows, hd] using h')
  | more hs _ ih =>
    rw [yields_iff, hs] at h'
    exact ih h'
  | row hs _ ih =>
    rw [yields_iff, hs] at h'
    obtain ⟨rest, rfl, hy⟩ := h'
    rw [ih hy]

/-- A selection that is done yields nothing, whatever its input still has. -/
theorem yields_finished (hf : s.finished = true) : s.Yields t c rows ↔ rows = [] := by
  have hs (c : Control) : s.stepOn t c = ⟨.dry, (s, t), c⟩ := by
    simp only [stepOn, stepOver, begin, if_pos hf]
    rfl
  rw [yields_iff, hs]
  simp only [Follows]
  split
  · rw [yields_iff, hs]
    rfl
  · rfl

end

/-! ## Selections whose bounds are known -/

/-- The window after so many rows were let through or left out. -/
def Window.after (offset limit : Option Scalar) (b : Bounds) (n : Nat) : Window :=
  ⟨offset, limit, some b, min n b.offset, n - b.offset, false⟩

section
variable {s : Selection} {offset limit : Option Scalar} {b : Bounds} {n : Nat}
  {t : List InputEvent} {c d : Control} {rows : List Value}

theorem begin_after : (s.windowed (.after offset limit b n)).begin c =
    if b.reached (n - b.offset) then
      .inl ⟨.dry, { s.windowed (.after offset limit b n) with finished := true }, c⟩
    else .inr (b, s.windowed (.after offset limit b n), c) := by
  rfl

theorem yields_reached (h : b.reached (n - b.offset) = true) :
    (s.windowed (.after offset limit b n)).Yields t c rows ↔ rows = [] := by
  have hs : (s.windowed (.after offset limit b n)).stepOn t c =
      ⟨.dry, ({ s.windowed (.after offset limit b n) with finished := true }, t), c⟩ := by
    simp only [stepOn, stepOver, begin_after, if_pos h]
    rfl
  rw [yields_iff, hs]
  simp only [Follows]
  split
  · exact yields_finished rfl
  · rfl

theorem stepOn_after (h : ¬b.reached (n - b.offset) = true) :
    (s.windowed (.after offset limit b n)).stepOn t c =
      (((s.windowed (.after offset limit b n)).onInput b (InputEvent.play s.sourceReg t c).signal
        (InputEvent.play s.sourceReg t c).control).map
          (·, (InputEvent.play s.sourceReg t c).state)) := by
  simp only [stepOn, stepOver, begin_after, if_neg h]
  rfl

theorem yields_more : (s.windowed (.after offset limit b n)).Yields (.more :: t) c rows ↔
    (s.windowed (.after offset limit b n)).Yields t c rows := by
  by_cases h : b.reached (n - b.offset) = true
  · rw [yields_reached h, yields_reached h]
  · rw [yields_iff, stepOn_after h]
    rfl

theorem yields_pause : (s.windowed (.after offset limit b n)).Yields (.pause :: t) c rows ↔
    (s.windowed (.after offset limit b n)).Yields t c.suspend.beginCall rows := by
  by_cases h : b.reached (n - b.offset) = true
  · rw [yields_reached h, yields_reached h]
  · rw [yields_iff, stepOn_after h]
    rfl

theorem yields_suspended (hc : c.needsContinuation = true) :
    (s.windowed (.after offset limit b n)).Yields [] c rows ↔
      (s.windowed (.after offset limit b n)).Yields [] c.beginCall rows := by
  by_cases h : b.reached (n - b.offset) = true
  · rw [yields_reached h, yields_reached h]
  · rw [yields_iff, stepOn_after h]
    simp only [InputEvent.play, onInput, hc, ↓reduceIte, Step.map, Follows]

theorem emit_after (row : Value) : (s.windowed (.after offset limit b n)).emit b row c =
    if n < b.offset then ⟨.more, s.windowed (.after offset limit b (n + 1)), c⟩
    else ⟨.row, s.windowed (.after offset limit b (n + 1)), c.setReg s.reg row⟩ := by
  simp only [emit, windowed, Window.after]
  by_cases hn : n < b.offset
  · have hs : min n b.offset < b.offset := by omega
    have hskip : min n b.offset + 1 = min (n + 1) b.offset := by omega
    have hprod : n - b.offset = n + 1 - b.offset := by omega
    simp only [hs, hn, ↓reduceIte, hskip, hprod]
  · have hs : ¬min n b.offset < b.offset := by omega
    have hskip : min n b.offset = min (n + 1) b.offset := by omega
    have hprod : n - b.offset + 1 = n + 1 - b.offset := by omega
    simp only [hs, hn, ↓reduceIte, ← hskip, hprod]

theorem finishGroup_control (s : Selection) (key : List Value) (c : Control) :
    (s.finishGroup key c).2.2.needsContinuation = c.needsContinuation := by
  unfold finishGroup
  split <;> rfl

theorem emit_finished (f : Bool) (row : Value) :
    { s with finished := f }.emit b row c = ⟨(s.emit b row c).signal,
      { (s.emit b row c).state with finished := f }, (s.emit b row c).control⟩ := by
  simp only [emit]
  split <;> rfl

/-- What follows when something was made of a row. -/
def Passes (offset limit : Option Scalar) (b : Bounds) (n : Nat) (t : List InputEvent)
    (rows : List Value) : Made → Prop
  | (.error _, _, _) => False
  | (.ok none, s, c) => (s.windowed (.after offset limit b n)).Yields t c rows
  | (.ok (some row), s, c) =>
    if n < b.offset then (s.windowed (.after offset limit b (n + 1))).Yields t c rows
    else ∃ rest, rows = (c.setReg s.reg row).reg s.reg :: rest ∧
      (s.windowed (.after offset limit b (n + 1))).Yields t (c.setReg s.reg row) rest

theorem yields_row {a : InputRow} (h : ¬b.reached (n - b.offset) = true) :
    (s.windowed (.after offset limit b n)).Yields (.row a :: t) c rows ↔
      Passes offset limit b n t rows (s.made (c.arrive s.sourceReg a)) := by
  rw [yields_iff, stepOn_after h]
  simp only [InputEvent.play, onInput_row, made_windowed]
  generalize s.made (c.arrive s.sourceReg a) = m
  rcases m with ⟨_ | _ | row, p, d⟩
  · rfl
  · rfl
  · simp only [Made.windowed, pass, emit_after, Passes]
    split <;> rfl

/-- Nothing comes out at the end if no group is left. -/
theorem yields_end_idle (hc : c.needsContinuation = false)
    (hs : s.grouping = none ∨ s.current = none ∧ s.sawInput = true) :
    (s.windowed (.after offset limit b n)).Yields [] c rows ↔ rows = [] := by
  by_cases h : b.reached (n - b.offset) = true
  · exact yields_reached h
  · have hstep : (s.windowed (.after offset limit b n)).onInput b .dry c =
        ⟨.dry, { s.windowed (.after offset limit b n) with finished := true }, c⟩ := by
      simp only [onInput, hc, Bool.false_eq_true, ↓reduceIte]
      cases hg : s.grouping with
      | none => simp [windowed, hg]
      | some gb =>
        obtain ⟨hcur, hsaw⟩ := hs.resolve_left (by simp [hg])
        simp [windowed, hg, endGroups, hcur, hsaw]
    rw [yields_iff, stepOn_after h]
    simp only [InputEvent.play, hstep, Step.map, Follows, hc, Bool.false_eq_true, ↓reduceIte]

/-- The selection between two groups. -/
def between (s : Selection) : Selection := { s with current := none }

/-- The row of a complete group. -/
def completed (s : Selection) (key : List Value) (c : Control) : Made :=
  match s.finishGroup key c with
  | (.error e, s, c) => (.error e, s, c)
  | (.ok row, s, c) => (.ok (some row), s, c)

/-- What is made of the end of the input. -/
def ended (s : Selection) (c : Control) : Made :=
  match s.grouping, s.current with
  | none, _ => (.ok none, s, c)
  | some _, some key => s.between.completed key c
  | some gb, none => if gb = 0 && !s.sawInput then s.completed [] c else (.ok none, s, c)

theorem endGroups_current {gb : Nat} {key : List Value} (hcur : s.current = some key) :
    (s.windowed (.after offset limit b n)).endGroups b gb c =
      match s.between.finishGroup key c with
      | (.error e, p, d) =>
        ⟨.fail e, { p.windowed (.after offset limit b n) with finished := true }, d⟩
      | (.ok row, p, d) =>
        if n < b.offset then ⟨.more, p.windowed (.after offset limit b (n + 1)), d⟩
        else ⟨.row, { p.windowed (.after offset limit b (n + 1)) with finished := true },
          d.setReg p.reg row⟩ := by
  have hw : { s.windowed (.after offset limit b n) with current := none } =
    s.between.windowed (.after offset limit b n) := rfl
  have hcur' : (s.windowed (.after offset limit b n)).current = some key := hcur
  simp only [endGroups, hcur', hw, finishGroup_windowed]
  generalize s.between.finishGroup key c = m
  rcases m with ⟨_ | row, p, d⟩
  · rfl
  · simp only [emit_finished, emit_after]
    by_cases hn : n < b.offset
    · have hs : ¬b.offset ≤ min n b.offset := by omega
      simp only [hn, ↓reduceIte]
      simp only [windowed, Window.after, hs, decide_false]
    · have hs : b.offset ≤ min n b.offset := by omega
      simp only [hn, ↓reduceIte]
      simp only [windowed, Window.after, hs, decide_true]

theorem endGroups_empty (hcur : s.current = none) (hsaw : s.sawInput = false) :
    (s.windowed (.after offset limit b n)).endGroups b 0 c =
      match s.finishGroup [] c with
      | (.error e, p, d) =>
        ⟨.fail e, { p.windowed (.after offset limit b n) with finished := true }, d⟩
      | (.ok row, p, d) =>
        ⟨.row, { p.windowed ⟨offset, limit, some b, max (min n b.offset) b.offset,
          n - b.offset + 1, true⟩ with finished := true }, d.setReg p.reg row⟩ := by
  have hcur' : (s.windowed (.after offset limit b n)).current = none := hcur
  have hsaw' : (s.windowed (.after offset limit b n)).sawInput = false := hsaw
  simp only [endGroups, hcur', hsaw', finishGroup_windowed]
  generalize s.finishGroup [] c = m
  rcases m with ⟨_ | row, p, d⟩
  · rfl
  · have hs : ¬max (min n b.offset) b.offset < b.offset := by omega
    simp only [emit, windowed, Window.after, hs]
    rfl

/-- At the end there is at most one row, and no offset leaves out the row of aggregates over no rows
at all. -/
theorem yields_end (h : ¬b.reached (n - b.offset) = true) (hc : c.needsContinuation = false)
    (hs : s.current.isSome = true → s.sawInput = true) :
    (s.windowed (.after offset limit b n)).Yields [] c rows ↔
      match s.ended c with
      | (.error _, _, _) => False
      | (.ok none, _, _) => rows = []
      | (.ok (some row), p, d) =>
        if n < b.offset ∧ s.current.isSome then rows = []
        else rows = [(d.setReg p.reg row).reg p.reg] := by
  have hgw : (s.windowed (.after offset limit b n)).grouping = s.grouping := rfl
  rw [yields_iff, stepOn_after h]
  simp only [InputEvent.play, onInput, hc, Bool.false_eq_true, ↓reduceIte, ended, hgw]
  cases hg : s.grouping with
  | none => simp [Step.map, Follows, hc]
  | some gb =>
    cases hcur : s.current with
    | some key =>
      have hk := s.between.finishGroup_continues c key
      have hkc := s.between.finishGroup_current key c
      have hkd := s.between.finishGroup_control key c
      simp only [endGroups_current hcur, completed]
      generalize s.between.finishGroup key c = m at hk hkc hkd
      rcases m with ⟨_ | row, p, d⟩
      · simp [Step.map, Follows]
      · have hidle : p.current = none ∧ p.sawInput = true :=
          ⟨hkc, hk.sawInput (hs (by rw [hcur]; rfl))⟩
        simp only [Option.isSome_some, and_true]
        split
        · exact yields_end_idle (hkd.trans hc) (.inr hidle)
        · simp only [Step.map, Follows, yields_finished, exists_eq_right]
          rfl
    | none =>
      by_cases h0 : (gb = 0 && !s.sawInput) = true
      · simp only [Bool.and_eq_true, decide_eq_true_eq, Bool.not_eq_true'] at h0
        obtain ⟨rfl, hsaw⟩ := h0
        simp only [endGroups_empty hcur hsaw, completed, hsaw]
        generalize s.finishGroup [] c = m
        rcases m with ⟨_ | row, p, d⟩
        · simp [Step.map, Follows]
        · simp only [Step.map, Follows, yields_finished, exists_eq_right]
          simp [windowed]
      · have hcw : (s.windowed (.after offset limit b n)).current = none := hcur
        have hsw : (s.windowed (.after offset limit b n)).sawInput = s.sawInput := rfl
        simp only [endGroups, hcw, hsw, if_neg h0]
        simp [Step.map, Follows, hc]

end

end Selection
end ShardQuery
