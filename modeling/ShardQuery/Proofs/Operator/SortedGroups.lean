import ShardQuery.Proofs.Operator.Folding

/-!
Two ways of grouping come to the same: a select step folds the rows of a run as they come and keeps
one group at a time, a group step keeps all groups until its input has ended. Where the rows of each
group come in one run, both have the same rows to hand on, in the same order, or both fail.
-/

namespace ShardQuery
namespace Selection

variable {c : Control}

/-! ## Draining a select step -/

/-- What draining a select step comes to, over as many calls as it takes: a failure, or the rows
that come out. A call may end after any row. -/
def Drains (s : Selection) (t : List InputEvent) (c : Control)
    (r : Except QueryError (List Value)) : Prop :=
  Exhausts (fun p => p.1.stepOn p.2) (fun p d => d.reg p.1.reg) (s, t) c r

/-- Draining a step comes to an end, and whatever it comes to is as told. -/
def Ends (s : Selection) (t : List InputEvent) (c : Control)
    (P : Except QueryError (List Value) → Prop) : Prop :=
  EndsWith (fun p => p.1.stepOn p.2) (fun p d => d.reg p.1.reg) (s, t) c P

/-- A row comes out before the others. -/
theorem drains_cons {s p : Selection} {t u : List InputEvent} {d : Control} {v : Value}
    {rows : List Value} (h : s.stepOn t c = ⟨.row, (p, u), d⟩) (hv : d.reg p.reg = v)
    (hrows : p.Drains u d (.ok rows)) : s.Drains t c (.ok (v :: rows)) :=
  hv ▸ Exhausts.row h (.inl rfl) hrows

/-- What a drain may come to where `expected` is due: just that, and a failure only if that is one,
too, or the budget is spent. -/
def Meets (expected : Except QueryError (List Value)) : Except QueryError (List Value) → Prop
  | .ok out => expected = .ok out
  | .error e => (∃ failure, expected = .error failure) ∨ e.OutOfMemory

/-- The selection with no bounds when so many rows have come out. -/
def after (s : Selection) (n : Nat) : Selection := s.windowed (.after none none ⟨0, none⟩ n)

section
variable {s p : Selection} {n : Nat} {t : List InputEvent} {d : Control} {a : InputRow}
  {P Q : Except QueryError (List Value) → Prop}

theorem stepOn_eq (s : Selection) (n : Nat) (t : List InputEvent) (c : Control) :
    (s.after n).stepOn t c =
      ((s.after n).onInput ⟨0, none⟩ (InputEvent.play s.sourceReg t c).signal
        (InputEvent.play s.sourceReg t c).control).map
          (·, (InputEvent.play s.sourceReg t c).state) := stepOn_after (by simp [Bounds.reached])

theorem stepOn_row : (s.after n).stepOn (.row a :: t) c =
    (pass ⟨0, none⟩ ((s.made (c.arrive s.sourceReg a)).windowed
      (.after none none ⟨0, none⟩ n))).map (·, t) := by
  rw [stepOn_eq, InputEvent.play, onInput_row, after, made_windowed]

theorem ends_refused {e : QueryError} (hm : s.made (c.arrive s.sourceReg a) = (.error e, p, d))
    (h : P (.error e)) : (s.after n).Ends (.row a :: t) c P := by
  have hstep : (s.after n).stepOn (.row a :: t) c = ⟨.fail e, (p.after n, t), d⟩ := by
    rw [stepOn_row, hm]
    rfl
  exact EndsWith.fail hstep h

theorem ends_folded (hm : s.made (c.arrive s.sourceReg a) = (.ok none, p, d))
    (h : (p.after n).Ends t d P) : (s.after n).Ends (.row a :: t) c P := by
  have hstep : (s.after n).stepOn (.row a :: t) c = ⟨.more, (p.after n, t), d⟩ := by
    rw [stepOn_row, hm]
    rfl
  exact EndsWith.more hstep h

theorem ends_emitted {out : Value} (hm : s.made (c.arrive s.sourceReg a) = (.ok (some out), p, d))
    (hreg : p.reg < d.size) (h : ∀ d' : Control, d'.size = d.size → (p.after (n + 1)).Ends t d' Q)
    (hPQ : ∀ r, Q r → P (r.map (out :: ·))) : (s.after n).Ends (.row a :: t) c P := by
  have hstep : (s.after n).stepOn (.row a :: t) c =
      ⟨.row, (p.after (n + 1), t), d.setReg p.reg out⟩ := by
    rw [stepOn_row, hm]
    exact congrArg (Step.map (·, t)) (emit_after out)
  have hread : (d.setReg p.reg out).reg p.reg = out := Control.setReg_reg hreg out
  refine EndsWith.row hstep (h _ (d.setReg_size ..)) (h _ (d.setReg_size ..)) fun r hr => ?_
  exact (congrArg (fun v => P (r.map (v :: ·))) hread).mpr (hPQ r hr)

theorem ends_more (h : (s.after n).Ends t c P) : (s.after n).Ends (.more :: t) c P :=
  EndsWith.more (stepOn_eq s n (.more :: t) c) h

theorem ends_pause (h : (s.after n).Ends t c.suspend.beginCall P) :
    (s.after n).Ends (.pause :: t) c P := EndsWith.pause (stepOn_eq s n (.pause :: t) c) rfl h

/-- If the call that comes to the end of the input has to stop there, the next one goes on. -/
theorem ends_nil (hend : ∀ d : Control, d.size = c.size → d.needsContinuation = false →
    (s.after n).Ends [] d P) : (s.after n).Ends [] c P := by
  cases hc : c.needsContinuation with
  | false => exact hend c rfl hc
  | true =>
    have hstep : (s.after n).stepOn [] c = ⟨.dry, (s.after n, []), c⟩ := by
      rw [stepOn_eq]
      simp only [InputEvent.play, onInput, hc, ↓reduceIte]
      rfl
    exact EndsWith.pause hstep hc (hend c.beginCall rfl rfl)

/-- A selection that is done has no more rows. -/
theorem ends_finished (hf : s.finished = true) (h : P (.ok [])) : s.Ends t c P := by
  have hs (c : Control) : s.stepOn t c = ⟨.dry, (s, t), c⟩ := by
    simp only [stepOn, stepOver, begin, if_pos hf]
    rfl
  cases hc : c.needsContinuation with
  | false => exact EndsWith.dry (hs c) hc h
  | true => exact EndsWith.pause (hs c) hc (EndsWith.dry (hs c.beginCall) rfl h)

/-- The row that comes out at the end is the last one. -/
theorem ends_last {out : Value} (hstep : s.stepOn t c = ⟨.row, (p, t), d.setReg p.reg out⟩)
    (hf : p.finished = true) (hreg : p.reg < d.size) (h : P (.ok [out])) : s.Ends t c P := by
  have hread : (d.setReg p.reg out).reg p.reg = out := Control.setReg_reg hreg out
  have hdry (d : Control) : p.Ends t d (.ok [] = ·) := ends_finished hf rfl
  refine EndsWith.row hstep (hdry _) (hdry _) ?_
  rintro _ rfl
  exact (congrArg (fun v => P (.ok [v])) hread).mpr h

theorem stepOn_end {gb : Nat} (hg : s.grouping = some gb) (hc : c.needsContinuation = false) :
    (s.after n).stepOn [] c = ((s.after n).endGroups ⟨0, none⟩ gb c).map (·, []) := by
  have hg' : (s.after n).grouping = some gb := hg
  rw [stepOn_eq]
  simp only [InputEvent.play, onInput, hc, Bool.false_eq_true, ↓reduceIte, hg']

end

section
variable {s : Selection} {cols : FieldColumns} {info : GroupInfo} {key members : List Value}
  {n : Nat} {t : List InputEvent}

theorem Meets.of_eq {expected r : Except QueryError (List Value)} (h : r = expected) :
    Meets expected r := by
  cases r with
  | ok out => exact h.symm
  | error e => exact .inl ⟨e, h.symm⟩

theorem Meets.cons {expected r : Except QueryError (List Value)} (out : Value)
    (h : Meets expected r) : Meets (expected.map (out :: ·)) (r.map (out :: ·)) := by
  cases r with
  | ok rows =>
    obtain rfl : expected = .ok rows := h
    rfl
  | error e => exact h.imp_left fun ⟨failure, he⟩ => ⟨failure, by rw [he]; rfl⟩

section
variable {a : InputRow}

/-- If a row that is taken in goes to a run, what is due is what is due from then on. -/
theorem ends_taken (hg : s.GroupsOver cols c.size)
    (hgrows : Grows cols info key members none (s.made (c.arrive s.sourceReg a)))
    {rows : List Value} (hgo : ∀ (p : Selection) (d : Control), p.GroupsOver cols d.size →
      p.Run cols info key members →
        (p.after n).Ends t d (Meets ((runsFrom info.tuple key members rows).mapM info.runRow))) :
    (s.after n).Ends (.row a :: t) c
      (Meets ((runsFrom info.tuple key members rows).mapM info.runRow)) := by
  have hcont := s.made_continues (c.arrive s.sourceReg a)
  have hsize := (s.made_size (c.arrive s.sourceReg a)).trans (c.arrive_size s.sourceReg a)
  rw [← hsize] at hg
  generalize hm : s.made (c.arrive s.sourceReg a) = m at hgrows hcont hg
  obtain ⟨e | made, p, d⟩ := m
  · exact ends_refused hm (hgrows.imp_left fun h => GroupInfo.exists_runsFrom_error h key rows)
  · obtain ⟨rfl, hrun⟩ := hgrows
    exact ends_folded hm (hgo p d (hg.continues hcont) hrun)

/-- If it completes a run, the row of that run is due before. -/
theorem ends_completed (hg : s.GroupsOver cols c.size) {out : Value}
    (hgrows : Grows cols info key members (some out) (s.made (c.arrive s.sourceReg a)))
    {rows : List Value} (hgo : ∀ (p : Selection) (d : Control), p.GroupsOver cols d.size →
      p.Run cols info key members → (p.after (n + 1)).Ends t d
        (Meets ((runsFrom info.tuple key members rows).mapM info.runRow))) :
    (s.after n).Ends (.row a :: t) c
      (Meets (((runsFrom info.tuple key members rows).mapM info.runRow).map (out :: ·))) := by
  have hcont := s.made_continues (c.arrive s.sourceReg a)
  have hsize := (s.made_size (c.arrive s.sourceReg a)).trans (c.arrive_size s.sourceReg a)
  rw [← hsize] at hg
  generalize hm : s.made (c.arrive s.sourceReg a) = m at hgrows hcont hg
  obtain ⟨e | made, p, d⟩ := m
  · refine ends_refused hm (hgrows.imp_left fun h => ?_)
    obtain ⟨failure, he⟩ := GroupInfo.exists_runsFrom_error h key rows
    exact ⟨failure, by rw [he]; rfl⟩
  · obtain ⟨rfl, hrun⟩ := hgrows
    have hp := hg.continues hcont
    exact ends_emitted hm hp.row (fun d' hd => hgo p d' (hd.symm ▸ hp) hrun) fun r hr => hr.cons out

end

/-- At the end of the input comes the row of the last run. -/
theorem ends_run_end (hinfo : cols.Describes info) (hg : s.GroupsOver cols c.size)
    (hrun : s.Run cols info key members) :
    (s.after n).Ends [] c (Meets ((runsFrom info.tuple key members []).mapM info.runRow)) := by
  refine ends_nil fun d hd hc => ?_
  obtain ⟨out, aggregates, hout, hfinish, -⟩ :=
    finishGroup_run (s := s.between) hinfo hg.names hrun.length hrun.holds d
  have hstep := stepOn_end (n := n) hg.grouping hc
  rw [after, endGroups_current hrun.current, hfinish] at hstep
  refine ends_last hstep rfl (hd.symm ▸ hg.row) (Meets.of_eq ?_)
  rw [runsFrom, List.mapM_cons, hout]
  rfl

/-- From the first row of a run on, one row after the other goes to the run or completes it. The
induction is on what the input still does. -/
theorem ends_run (hinfo : cols.Describes info) (hg : s.GroupsOver cols c.size)
    (hrun : s.Run cols info key members)
    (hrows : ∀ a ∈ InputEvent.rows t, cols.HasKeys a.row) :
    (s.after n).Ends t c (Meets ((runsFrom info.tuple key members
      ((InputEvent.rows t).map (·.row))).mapM info.runRow)) := by
  induction t generalizing s c n key members with
  | nil => exact ends_run_end hinfo hg hrun
  | cons event t ih =>
    cases event with
    | more => exact ends_more (ih hg hrun hrows)
    | pause => exact ends_pause (ih hg hrun hrows)
    | row a =>
      obtain ⟨hrow, hrest⟩ := List.forall_mem_cons.1 hrows
      obtain ⟨d, r, hr, hw, hdreg, hmade⟩ := made_arrive hg hinfo hrow
      let s' : Selection := { s with sawInput := true }
      have hrun' : s'.Run cols info key members := ⟨hrun.current, hrun.length, hrun.holds⟩
      have hlen := hinfo.length_tuple a.row
      rw [InputEvent.rows, List.map_cons, runsFrom]
      cases hs : sameGroup key (info.tuple a.row) with
      | true =>
        have hgrows := keyed_same (s := s') hinfo hw hrun' hs hdreg
        rw [← hmade, ← hr] at hgrows
        exact ends_taken hg hgrows fun p d hp hrun => ih hp hrun hrest
      | false =>
        obtain ⟨out, hout, hgrows⟩ :=
          keyed_other (s := s') hinfo hg.names hw hrun' hs hlen hdreg
        rw [← hmade, ← hr] at hgrows
        have hdue := ends_completed (n := n) hg hgrows fun p d hp hrun => ih hp hrun hrest
        rw [if_neg Bool.false_ne_true, List.mapM_cons, hout]
        exact hdue

/-! ## A whole drain -/

/-- The rows of all runs come out. Where there are no rows, there is a run of none of them if there
are no grouping fields. -/
theorem ends_byRuns (hinfo : cols.Describes info) (hg : s.GroupsOver cols c.size)
    (hcur : s.current = none) (hsaw : s.sawInput = false) (h : s.Holds cols info [])
    (hrows : ∀ a ∈ InputEvent.rows t, cols.HasKeys a.row) :
    (s.after 0).Ends t c (Meets (info.byRuns ((InputEvent.rows t).map (·.row)))) := by
  induction t generalizing c with
  | nil =>
    refine ends_nil fun d hd hc => ?_
    have hstep := stepOn_end (n := 0) hg.grouping hc
    rw [GroupInfo.byRuns, hinfo.grouping]
    cases hlen : cols.keys.length with
    | zero =>
      have hkey : ([] : List Value).length = info.grouping := (hinfo.grouping.trans hlen).symm
      obtain ⟨out, aggregates, hout, hfinish, -⟩ :=
        finishGroup_run hinfo hg.names hkey h d
      rw [hlen, after, endGroups_empty hcur hsaw, hfinish] at hstep
      refine ends_last hstep rfl (hd.symm ▸ hg.row) (Meets.of_eq ?_)
      change _ = [([], [])].mapM info.runRow
      rw [List.mapM_cons, hout]
      rfl
    | succ m =>
      have hnone : (s.after 0).stepOn [] d =
          ⟨.dry, ({ s.after 0 with finished := true }, []), d⟩ := by
        have hcur' : (s.after 0).current = none := hcur
        simp only [hstep, hlen, endGroups, hcur', Nat.succ_ne_zero, decide_false, Bool.false_and,
          Bool.false_eq_true, ↓reduceIte]
        rfl
      exact EndsWith.dry hnone hc rfl
  | cons event t ih =>
    cases event with
    | more => exact ends_more (ih hg hrows)
    | pause => exact ends_pause (ih hg hrows)
    | row a =>
      obtain ⟨hrow, hrest⟩ := List.forall_mem_cons.1 hrows
      obtain ⟨d, r, hr, hw, hdreg, hmade⟩ := made_arrive hg hinfo hrow
      have hlen := hinfo.length_tuple a.row
      have hgrows := keyed_first (s := { s with sawInput := true }) hinfo hw hcur h hlen hdreg
      rw [← hmade, ← hr] at hgrows
      exact ends_taken hg hgrows fun p d hp hrun => ends_run hinfo hp hrun hrest

end

/-! ## Plans that group in either way -/

section
variable {cols : FieldColumns} {info : GroupInfo} {shards : List Int} {reg : Nat}
  {step : PlanStep} {row : String} {star : Bool} {s : Selection} {input : Operator}

theorem mapM_aggregateStep (source : Nat) (row : String) (aggs : List FieldAggregate) :
    (aggs.map (·.step source row)).mapM Column.ofStep =
      .ok (aggs.map fun a => a.column source (.ofFunc a.func)) := by
  induction aggs with
  | nil => rfl
  | cons a rest ih =>
    rw [List.map_cons, List.mapM_cons, ih]
    rfl

/-- What the select step over the columns is made to. -/
def ofColumns (cols : FieldColumns) (reg source : Nat) (star : Bool) : Selection :=
  { reg, sourceReg := source, columns := cols.keys.map (fieldColumn source)
    aggregates := cols.aggregates.map fun a => a.column source (.ofFunc a.func)
    names := cols.names, grouping := some cols.keys.length, star, offset := none, limit := none }

theorem of_selectStep
    (h : Operator.ofStep shards (cols.selectStep reg step row star) = .ok (.select s input)) :
    s = ofColumns cols reg step.reg star := by
  simp only [FieldColumns.selectStep, Operator.ofStep, bind, Except.bind, pure, Except.pure] at h
  rw [List.mapM_append, mapM_fieldStep, mapM_aggregateStep] at h
  simp only [bind, Except.bind, pure, Except.pure, Option.getD_some, Operator.ofStep.ofBound] at h
  repeat' split at h
  all_goals cases h
  simp [ofColumns]

theorem ofColumns_holds (hinfo : cols.Describes info) (reg source : Nat) (star : Bool) :
    (ofColumns cols reg source star).Holds cols info [] := by
  refine ⟨info.columns.map fun col => .ofFunc col.1, mapM_of_forall fun _ _ => rfl, ?_⟩
  rw [hinfo.columns, List.map_map, List.zipWith_map_right, List.zipWith_self]
  rfl

/-- Such a select step has the rows of all runs to hand on. -/
theorem ends_selectStep {t : List InputEvent}
    (h : Operator.ofStep shards (cols.selectStep reg step row star) = .ok (.select s input))
    (hinfo : cols.Describes info) (hw : cols.Within step.reg c.size) (hstep : step.reg < c.size)
    (hreg : reg < c.size) (hrows : ∀ a ∈ InputEvent.rows t, cols.HasKeys a.row) :
    s.Ends t c (Meets (info.byRuns ((InputEvent.rows t).map (·.row)))) := by
  have hf := fresh_of_ofStep h
  obtain rfl := of_selectStep h
  have hbegin := stepOn_begin (c := c) (d := c) (b := ⟨0, none⟩) hf rfl t
  have hends := ends_byRuns hinfo ⟨rfl, rfl, rfl, hstep, hreg, hw⟩ rfl rfl
    (ofColumns_holds hinfo reg step.reg star) hrows
  exact EndsWith.of_step_eq hbegin hends

end

/-- What the group step of a plan is made to. -/
theorem of_groupStep {shards : List Int} {reg : Nat} {step : PlanStep} {info : GroupInfo}
    {g : Grouping} {input : Operator}
    (h : Operator.ofStep shards (.group reg step info) = .ok (.group g input)) :
    g = { reg, inputReg := step.reg, info } := by
  simp only [Operator.ofStep, bind, Except.bind, pure, Except.pure] at h
  split at h
  · cases h
  · split at h <;> cases h
    rfl

/-- A group step has the rows of the reference to hand on. -/
theorem ends_groupStep {shards : List Int} {reg : Nat} {step : PlanStep} {info : GroupInfo}
    {g : Grouping} {input : Operator} {t : List InputEvent}
    (h : Operator.ofStep shards (.group reg step info) = .ok (.group g input))
    (hfuncs : info.funcs ≠ []) (hstep : step.reg < c.size) (hreg : reg < c.size)
    (hrecords : ∀ a ∈ InputEvent.rows t, ∃ fields, a.row = .map fields) :
    g.Ends t c (g.Meets ((info.groups ((InputEvent.rows t).map (·.row))).map (·.map (·, [])))) := by
  have hf := Grouping.fresh_of_ofStep h
  obtain rfl := of_groupStep h
  have hsome : ¬info.funcs.isEmpty = true := by simpa using hfuncs
  have hdrained : info.drained t =
      (info.groups ((InputEvent.rows t).map (·.row))).map (·.map (·, [])) := by
    rw [GroupInfo.drained, if_neg hsome]
  rw [← hdrained]
  exact Grouping.ends_drained hf hreg hstep hrecords

/-- What two drains come to that are due the same. -/
theorem Meets.agree {g : Grouping} {expected r : Except QueryError (List Value)}
    {r' : Except QueryError (List (Value × List InputEvent))} (h : Meets expected r)
    (h' : g.Meets (expected.map (·.map (·, []))) r') :
    (∃ out, expected = .ok out ∧ r = .ok out ∧ r'.map (List.map Prod.fst) = .ok out) ∨
      (∃ failure e e', expected = .error failure ∧ r = .error e ∧ r' = .error e') ∨
      ∃ e, e.OutOfMemory ∧ (r = .error e ∨ r' = .error e) := by
  cases r with
  | ok rows =>
    obtain rfl : expected = .ok rows := h
    cases r' with
    | ok rows' =>
      obtain rfl := Except.ok.inj h'
      have hfirst := (List.map_map (g := Prod.fst) (f := (·, ([] : List InputEvent)))
        (l := rows)).trans (List.map_id rows)
      exact .inl ⟨rows, rfl, rfl, congrArg Except.ok hfirst⟩
    | error e =>
      rcases h' with ⟨_, he⟩ | ⟨-, hmem⟩
      · cases he
      · exact .inr (.inr ⟨e, hmem, .inr rfl⟩)
  | error e =>
    rcases h with ⟨failure, rfl⟩ | hmem
    · cases r' with
      | ok rows' => cases h'
      | error e' => exact .inr (.inl ⟨failure, e, e', rfl, rfl, rfl⟩)
    · exact .inr (.inr ⟨e, hmem, .inl rfl⟩)

/-- Grouping rows run by run and grouping them in a table come to the same where rows with equal
grouping tuples come one after the other: both steps come to an end, and both hand on the rows of
the reference in their order or both fail as it does, unless one of them runs out of memory. How the
rows are spread over calls makes no difference, neither does what the inputs do besides. -/
theorem drains_like_group {cols : FieldColumns} {info : GroupInfo} {shards shards' : List Int}
    {reg reg' : Nat} {step step' : PlanStep} {row : String} {star : Bool} {s : Selection}
    {g : Grouping} {input input' : Operator} {t t' : List InputEvent} {c c' : Control}
    (hs : Operator.ofStep shards (cols.selectStep reg step row star) = .ok (.select s input))
    (hg : Operator.ofStep shards' (.group reg' step' info) = .ok (.group g input'))
    (hinfo : cols.Describes info) (hne : cols.aggregates ≠ [])
    (hcounts : ∀ a ∈ cols.aggregates, a.func.isCount = false)
    (hw : cols.Within step.reg c.size) (hstep : step.reg < c.size) (hreg : reg < c.size)
    (hstep' : step'.reg < c'.size) (hreg' : reg' < c'.size)
    (hrows : (InputEvent.rows t').map (·.row) = (InputEvent.rows t).map (·.row))
    (hkeys : ∀ a ∈ InputEvent.rows t, cols.HasKeys a.row)
    (hcollected : ∀ col ∈ cols.aggregates, col.func.collects = true →
      ∀ a ∈ InputEvent.rows t, ∀ items, a.row.field col.name ≠ .array items)
    (hc : Contiguous info.tuple ((InputEvent.rows t).map (·.row))) :
    (∃ r, s.Drains t c r) ∧ (∃ r', g.Drains t' c' r') ∧
    ∀ r r', s.Drains t c r → g.Drains t' c' r' →
      (∃ out, info.groups ((InputEvent.rows t).map (·.row)) = .ok out ∧
        r = .ok out ∧ r'.map (List.map Prod.fst) = .ok out) ∨
      (∃ failure e e', info.groups ((InputEvent.rows t).map (·.row)) = .error failure ∧
        r = .error e ∧ r' = .error e') ∨
      ∃ e, e.OutOfMemory ∧ (r = .error e ∨ r' = .error e) := by
  have hfuncs : info.funcs ≠ [] := by
    rw [hinfo.funcs]
    exact List.map_eq_nil_iff.not.2 hne
  have hcounts' : ∀ f ∈ info.funcs, f.isCount = false := by
    rw [hinfo.funcs]
    exact List.forall_mem_map.2 hcounts
  have hplain : info.Plain ((InputEvent.rows t).map (·.row)) := by
    constructor
    · rw [hinfo.take_names]
      exact List.forall_mem_map.2 fun a ha => List.forall_mem_map.2 (hkeys a ha).2
    · rw [hinfo.columns]
      exact List.forall_mem_map.2 fun col hcol hf =>
        List.forall_mem_map.2 (hcollected col hcol hf)
  have hrecords : ∀ a ∈ InputEvent.rows t', ∃ fields, a.row = .map fields := by
    intro a ha
    obtain ⟨b, hb, hba⟩ := List.mem_map.1 (hrows ▸ List.mem_map_of_mem ha)
    obtain ⟨fields, hb⟩ := (hkeys b hb).1
    exact ⟨fields, hba.symm.trans hb⟩
  obtain ⟨hends, hall⟩ := ends_selectStep hs hinfo hw hstep hreg hkeys
  rw [← GroupInfo.groups_eq_byRuns hplain hfuncs hcounts' hc] at hall
  obtain ⟨hends', hall'⟩ := ends_groupStep hg hfuncs hstep' hreg' hrecords
  refine ⟨hends, hends', fun r r' hr hr' => ?_⟩
  have hmeets := hall' r' hr'
  rw [hrows] at hmeets
  exact (hall r hr).agree hmeets

/-- A sum and a collection over two groups, with the input of the select step spread over two calls
and that of the group step over one. -/
theorem drains_like_group_twoCalls :
    let cols : FieldColumns := ⟨[(1, "a")], [⟨2, .sum, 3, "n"⟩, ⟨4, .collect, 5, "m"⟩]⟩
    let info : GroupInfo := ⟨1, ["a", "n", "m"], [.sum, .collect], false, true, false⟩
    let row (a n m : Value) : InputEvent := .row ⟨.map [("a", a), ("n", n), ("m", m)], [], id⟩
    let x := row (.integer 1) (.integer 2) .null
    let y := row (.long 1) (.long 3) (.integer 7)
    let z := row .null (.integer 5) .empty
    let s := ofColumns cols 6 0 false
    let g : Grouping := { reg := 1, inputReg := 0, info }
    let out : List Value := [
      .map [("a", .integer 1), ("n", .long 5), ("m", .array [.null, .integer 7])],
      .map [("a", .null), ("n", .integer 5), ("m", .array [])]]
    s.Drains [x, .pause, y, .more, z] (.ofConfig {} 7) (.ok out) ∧
      ∀ r', g.Drains [.more, x, y, z] (.ofConfig {} 2) r' →
        r'.map (List.map Prod.fst) = .ok out ∨ ∃ e, e.OutOfMemory ∧ r' = .error e := by
  intro cols info row x y z s g out
  have hs : ∃ input, Operator.ofStep [] (cols.selectStep 6
      (.receive 0 ⟨.singlePartition, [], []⟩) "row" false) = .ok (.select s input) := ⟨_, rfl⟩
  have hg : ∃ input, Operator.ofStep []
      (.group 1 (.receive 0 ⟨.singlePartition, [], []⟩) info) = .ok (.group g input) := ⟨_, rfl⟩
  obtain ⟨input, hs⟩ := hs
  obtain ⟨input', hg⟩ := hg
  have hdrains : s.Drains [x, .pause, y, .more, z] (.ofConfig {} 7) (.ok out) := by
    refine .more (by cbv) (.pause (by cbv) rfl (.more (by cbv) (.more (by cbv) ?_)))
    exact drains_cons (by cbv) rfl (drains_cons (by cbv) rfl (.dry (by cbv) rfl))
  have hrows : (InputEvent.rows [.more, x, y, z]).map (·.row) =
      (InputEvent.rows [x, .pause, y, .more, z]).map (·.row) := rfl
  have hkeys : ∀ a ∈ InputEvent.rows [x, .pause, y, .more, z], cols.HasKeys a.row := by
    simp [x, y, z, row, cols, InputEvent.rows, FieldColumns.HasKeys, Value.field, Value.record?,
      Record.get?]
  have hcollected : ∀ col ∈ cols.aggregates, col.func.collects = true →
      ∀ a ∈ InputEvent.rows [x, .pause, y, .more, z], ∀ items,
        a.row.field col.name ≠ .array items := by
    simp [x, y, z, row, cols, InputEvent.rows, AggregateFunc.collects, Value.field, Value.record?,
      Record.get?]
  have hc : Contiguous info.tuple ((InputEvent.rows [x, .pause, y, .more, z]).map (·.row)) := by
    decide
  have hregs : 0 < (Control.ofConfig {} 2).size ∧ 1 < (Control.ofConfig {} 2).size := by decide
  obtain ⟨-, -, hall⟩ := drains_like_group (c := .ofConfig {} 7) hs hg ⟨rfl, rfl, rfl⟩ (by decide)
    (by decide) ⟨by decide, by decide⟩ (by decide) (by decide) hregs.1 hregs.2 hrows hkeys
    hcollected hc
  refine ⟨hdrains, fun r' hr' => ?_⟩
  rcases hall _ r' hdrains hr' with ⟨_, -, h, h'⟩ | ⟨_, _, _, -, h, -⟩ | ⟨e, he, h | h⟩
  · exact .inl (h ▸ h')
  · cases h
  · cases h
  · exact .inr ⟨e, he, h⟩

end Selection
end ShardQuery
