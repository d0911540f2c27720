import ShardQuery.Operator.Tree
import ShardQuery.Proofs.Operator.Arrivals
import ShardQuery.Proofs.Operator.Exhaustion
import ShardQuery.Proofs.Operator.Queueing

/-!
Draining a group step on top of an input of which all is known beforehand: what comes out of it,
over as many calls as the input takes, and what it comes to once its groups come out.
-/

namespace ShardQuery
namespace Grouping

/-! ## Draining a step -/

/-- One step of a group step on top of any input. -/
def stepOver {σ : Type} (next : σ → Control → Step σ) (g : Grouping) (i : σ) (c : Control) :
    Step (Grouping × σ) :=
  match g.phase with
  | .done => ⟨.dry, (g, i), c⟩
  | .emitting => (g.emitNext c).map (·, i)
  | .consuming =>
    let r := next i c
    (g.onInput r.signal r.control).map (·, r.state)

/-- The operators of a query step in this way. -/
theorem step_group (g : Grouping) (input : Operator) (c : Control) :
    (Operator.group g input).step c =
      (g.stepOver Operator.step input c).map fun p => .group p.1 p.2 := by
  unfold stepOver
  rw [Operator.step.eq_def]
  simp only
  cases g.phase <;> rfl

/-- One step on top of an input that is told. -/
def stepOn (g : Grouping) (t : List InputEvent) (c : Control) : Step (Grouping × List InputEvent) :=
  g.stepOver (InputEvent.play g.inputReg) t c

/-- What draining a step comes to, over as many calls as it takes: a failure, or the rows that come
out, each with what was then still to come of the input. A call may end after any row. -/
inductive Drains : Grouping → List InputEvent → Control →
    Except QueryError (List (Value × List InputEvent)) → Prop
  | dry {g p : Grouping} {t u : List InputEvent} {c d : Control} :
    g.stepOn t c = ⟨.dry, (p, u), d⟩ → d.needsContinuation = false → Drains g t c (.ok [])
  | fail {g p : Grouping} {t u : List InputEvent} {c d : Control} {e : QueryError} :
    g.stepOn t c = ⟨.fail e, (p, u), d⟩ → Drains g t c (.error e)
  | pause {g p : Grouping} {t u : List InputEvent} {c d : Control}
    {r : Except QueryError (List (Value × List InputEvent))} :
    g.stepOn t c = ⟨.dry, (p, u), d⟩ → d.needsContinuation = true →
      Drains p u d.beginCall r → Drains g t c r
  | more {g p : Grouping} {t u : List InputEvent} {c d : Control}
    {r : Except QueryError (List (Value × List InputEvent))} :
    g.stepOn t c = ⟨.more, (p, u), d⟩ → Drains p u d r → Drains g t c r
  | row {g p : Grouping} {t u : List InputEvent} {c d d' : Control}
    {r : Except QueryError (List (Value × List InputEvent))} :
    g.stepOn t c = ⟨.row, (p, u), d⟩ → d' = d ∨ d' = d.beginCall → Drains p u d' r →
      Drains g t c (r.map ((d.reg p.reg, u) :: ·))

/-- Draining a step comes to an end, and whatever it comes to is as told. -/
def Ends (g : Grouping) (t : List InputEvent) (c : Control)
    (P : Except QueryError (List (Value × List InputEvent)) → Prop) : Prop :=
  (∃ r, g.Drains t c r) ∧ ∀ r, g.Drains t c r → P r

/-- What draining comes to is what exhausting the step comes to. -/
theorem drains_iff {g : Grouping} {t : List InputEvent} {c : Control}
    {r : Except QueryError (List (Value × List InputEvent))} :
    g.Drains t c r ↔
      Exhausts (fun p => p.1.stepOn p.2) (fun p d => (d.reg p.1.reg, p.2)) (g, t) c r := by
  constructor
  · intro h
    induction h with
    | dry hs hd => exact .dry hs hd
    | fail hs => exact .fail hs
    | pause hs hd _ ih => exact .pause hs hd ih
    | more hs _ ih => exact .more hs ih
    | row hs hn _ ih => exact .row hs hn ih
  · generalize hp : (g, t) = p
    intro h
    induction h generalizing g t with
    | dry hs hd =>
      cases hp
      exact .dry hs hd
    | fail hs =>
      cases hp
      exact .fail hs
    | pause hs hd _ ih =>
      cases hp
      exact .pause hs hd (ih rfl)
    | more hs _ ih =>
      cases hp
      exact .more hs (ih rfl)
    | row hs hn _ ih =>
      cases hp
      exact .row hs hn (ih rfl)

section
variable {g p : Grouping} {t u : List InputEvent} {c d : Control} {e : QueryError}
  {P Q : Except QueryError (List (Value × List InputEvent)) → Prop}

theorem ends_iff : g.Ends t c P ↔
    EndsWith (fun p => p.1.stepOn p.2) (fun p d => (d.reg p.1.reg, p.2)) (g, t) c P := by
  simp only [Ends, EndsWith, drains_iff]

theorem Ends.mono (h : g.Ends t c P) (hPQ : ∀ r, P r → Q r) : g.Ends t c Q :=
  ends_iff.2 ((ends_iff.1 h).mono hPQ)

theorem ends_dry (hs : g.stepOn t c = ⟨.dry, (p, u), d⟩) (hd : d.needsContinuation = false)
    (h : P (.ok [])) : g.Ends t c P := ends_iff.2 (.dry hs hd h)

theorem ends_fail (hs : g.stepOn t c = ⟨.fail e, (p, u), d⟩) (h : P (.error e)) :
    g.Ends t c P := ends_iff.2 (.fail hs h)

theorem ends_pause (hs : g.stepOn t c = ⟨.dry, (p, u), d⟩) (hd : d.needsContinuation = true)
    (h : p.Ends u d.beginCall P) : g.Ends t c P := ends_iff.2 (.pause hs hd (ends_iff.1 h))

theorem ends_more (hs : g.stepOn t c = ⟨.more, (p, u), d⟩) (h : p.Ends u d P) : g.Ends t c P :=
  ends_iff.2 (.more hs (ends_iff.1 h))

theorem ends_row (hs : g.stepOn t c = ⟨.row, (p, u), d⟩) (h : p.Ends u d Q)
    (h' : p.Ends u d.beginCall Q) (hPQ : ∀ r, Q r → P (r.map ((d.reg p.reg, u) :: ·))) :
    g.Ends t c P := ends_iff.2 (.row hs (ends_iff.1 h) (ends_iff.1 h') hPQ)

end

/-! ## Steps in each phase -/

section
variable {g : Grouping} {t : List InputEvent} {c : Control}

theorem stepOn_consuming (h : g.phase = .consuming) (t : List InputEvent) (c : Control) :
    g.stepOn t c = (g.onInput (InputEvent.play g.inputReg t c).signal
      (InputEvent.play g.inputReg t c).control).map
        (·, (InputEvent.play g.inputReg t c).state) := by
  simp only [stepOn, stepOver, h]

/-- The end of the input is one for good only if no continuation is needed. -/
theorem stepOn_nil (h : g.phase = .consuming) (hc : c.needsContinuation = false) :
    g.stepOn [] c = (g.endInput c).map (·, []) := by
  rw [stepOn_consuming h]
  simp only [InputEvent.play, onInput, hc, Bool.false_eq_true, ↓reduceIte]

/-- If the call that comes to the end of the input has to stop there, the next one goes on. -/
theorem ends_nil (h : g.phase = .consuming)
    {P : Except QueryError (List (Value × List InputEvent)) → Prop}
    (hend : ∀ d : Control, d.size = c.size → d.needsContinuation = false → g.Ends [] d P) :
    g.Ends [] c P := by
  cases hc : c.needsContinuation with
  | false => exact hend c rfl hc
  | true =>
    have hstep : g.stepOn [] c = ⟨.dry, (g, []), c⟩ := by
      rw [stepOn_consuming h]
      simp only [InputEvent.play, onInput, hc, ↓reduceIte]
      rfl
    exact ends_pause hstep hc (hend c.beginCall rfl rfl)

theorem stepOn_emitting (h : g.phase = .emitting) (t : List InputEvent) (c : Control) :
    g.stepOn t c = (g.emitNext c).map (·, t) := by
  simp only [stepOn, stepOver, h]

/-- A step that is done has no more rows. -/
theorem ends_done (h : g.phase = .done)
    {P : Except QueryError (List (Value × List InputEvent)) → Prop} (hP : P (.ok [])) :
    g.Ends t c P := by
  have hs (c : Control) : g.stepOn t c = ⟨.dry, (g, t), c⟩ := by
    simp only [stepOn, stepOver, h]
  cases hc : c.needsContinuation with
  | false => exact ends_dry (hs c) hc hP
  | true => exact ends_pause (hs c) hc (ends_dry (hs c.beginCall) rfl hP)

/-- The rows of the groups come out one after the other. -/
theorem ends_emitting (h : g.phase = .emitting) (hreg : g.reg < c.size) (hq : g.Queued)
    {before es : List GroupEntry} (hg : g.groups = before ++ es)
    (ho : g.order = es.map (·.key)) :
    g.Ends t c (· = .ok (es.map fun e => (g.rowOf e, t))) := by
  induction es generalizing g c before with
  | nil =>
    have hs (c : Control) : g.stepOn t c = ⟨.dry, ({ g with phase := .done }, t), c⟩ := by
      rw [stepOn_emitting h, emitNext, ho]
      rfl
    cases hc : c.needsContinuation with
    | false => exact ends_dry (hs c) hc rfl
    | true => exact ends_pause (hs c) hc (ends_done rfl rfl)
  | cons e rest ih =>
    have hrow (d : Control) : (d.setReg g.reg (g.rowOf e)).size = d.size := d.setReg_size ..
    have hread : (c.setReg g.reg (g.rowOf e)).reg g.reg = g.rowOf e := Control.setReg_reg hreg _
    have hcons (r : Except QueryError (List (Value × List InputEvent)))
        (hr : r = .ok (rest.map fun e => (g.rowOf e, t))) :
        r.map ((g.rowOf e, t) :: ·) = .ok ((e :: rest).map fun e => (g.rowOf e, t)) := by
      rw [hr]
      rfl
    have hstep := stepOn_emitting h t c
    rw [hq.emitNext_eq hg ho] at hstep
    cases hp : g.info.removeProduced with
    | true =>
      have hq' := hq.remove ho e
      simp only [removed, hq.eraseP_key hg] at hq'
      rw [if_pos hp] at hstep
      refine ends_row hstep (ih h ?_ hq' rfl rfl) (ih h ?_ hq' rfl rfl) fun r hr => ?_
      · exact (hrow c).symm ▸ hreg
      · exact (hrow c).symm ▸ hreg
      · exact (congrArg (fun v => r.map ((v, t) :: ·)) hread).trans (hcons r hr)
    | false =>
      have hq' := hq.dequeue ho
      have hg' : g.groups = (before ++ [e]) ++ rest := by rw [hg, List.append_assoc]; rfl
      rw [if_neg (Bool.eq_false_iff.1 hp)] at hstep
      refine ends_row hstep (ih h ?_ hq' hg' rfl) (ih h ?_ hq' hg' rfl) fun r hr => ?_
      · exact (hrow c).symm ▸ hreg
      · exact (hrow c).symm ▸ hreg
      · exact (congrArg (fun v => r.map ((v, t) :: ·)) hread).trans (hcons r hr)

end

end Grouping
end ShardQuery
