import Mathlib.Logic.Relation
import ShardQuery.Proofs.Operator.Leaf
import ShardQuery.Proofs.Session.Drain

/-!
A query as one flow of rows, without calls: each batch comes when it is needed. Calls cut the flow
into pieces and do nothing else to it. Whatever a call does is some way along the flow.
-/

namespace ShardQuery

/-- A step without its frame. -/
def Step.bare {σ : Type} (t : Step σ) : Step σ := ⟨t.signal, t.state, t.control.bare⟩

structure Flow where
  root : Operator
  /-- What the operators see of the control. -/
  control : Control
  /-- Used so far, and what making the plan cost until it is charged. -/
  total : Capacity
  cost : Option Capacity
  /-- The requests answered so far, the latest first. -/
  log : List FetchRequest
  rows : List Value

namespace Flow

/-- What the operators do next. -/
def step (f : Flow) : Step Operator := (f.root.step f.control).bare

/-- The flow one step later, unless it ends or fails here. -/
def next (servers : Servers) (f : Flow) : Option Flow :=
  let t := f.step
  match t.signal with
  | .more => some { f with root := t.state, control := t.control }
  | .row => some { f with
      root := t.state, control := t.control, rows := f.rows ++ [t.control.reg t.state.reg] }
  | .request request =>
    match servers f.log request with
    | .error _ => none
    | .ok batch =>
      match t.state.deliver t.control batch with
      | (some _, _) => none
      | (none, root, control) => some
          { root
            control := control.bare
            total := f.total + (batch.consumed + f.cost.getD .zero)
            cost := none
            log := request :: f.log
            rows := f.rows }
  | .dry | .fail _ => none

/-- Some steps of a flow. -/
abbrev Leads (servers : Servers) : Flow → Flow → Prop :=
  Relation.ReflTransGen fun f g => f.next servers = some g

/-- Two flows that are at one point and go on alike. -/
structure Alike (f g : Flow) : Prop where
  step : f.step = g.step
  total : f.total = g.total
  cost : f.cost = g.cost
  log : f.log = g.log
  rows : f.rows = g.rows

namespace Alike
variable {servers : Servers} {f g h : Flow}

theorem refl (f : Flow) : Alike f f := ⟨rfl, rfl, rfl, rfl, rfl⟩

theorem trans (a : Alike f g) (b : Alike g h) : Alike f h :=
  ⟨a.step.trans b.step, a.total.trans b.total, a.cost.trans b.cost, a.log.trans b.log,
    a.rows.trans b.rows⟩

end Alike

/-- The flow has ended at a point: there are no more rows. -/
def Ends (f : Flow) : Prop := f.step.signal = .dry

variable {servers : Servers} {f g h : Flow}

theorem next_eq_none_of_ends (h : f.Ends) : f.next servers = none := by
  unfold Ends at h
  simp only [next, h]

theorem Alike.next (a : Alike f g) : f.next servers = g.next servers := by
  unfold Flow.next
  rw [a.step, a.log, a.rows, a.total, a.cost]

/-- What is ahead of a flow is ahead of every flow that is alike. -/
theorem Alike.leads (a : Alike f g) (hg : g.Leads servers h) (hn : g ≠ h) :
    f.Leads servers h := by
  rcases hg.cases_head with rfl | ⟨k, hk, hl⟩
  · exact (hn rfl).elim
  · exact .head (a.next.trans hk) hl

/-- A flow has one end. -/
theorem ends_unique (hg : f.Leads servers g) (hh : f.Leads servers h) (eg : g.Ends)
    (eh : h.Ends) : g = h := by
  induction hg using Relation.ReflTransGen.head_induction_on with
  | refl =>
    rcases hh.cases_head with rfl | ⟨k, hk, -⟩
    · rfl
    · rw [next_eq_none_of_ends eg] at hk
      cases hk
  | head hn _ ih =>
    rcases hh.cases_head with rfl | ⟨k, hk, hl⟩
    · rw [next_eq_none_of_ends eh] at hn
      cases hn
    · rw [hk] at hn
      cases hn
      exact ih hl

end Flow

/-! ## Steps of a call -/

/-- The flow at which operators are. -/
def Flow.of (op : Operator) (c : Control) (log : List FetchRequest) (rows : List Value) : Flow :=
  ⟨op, c.bare, c.totalConsumed, c.compileCost, log, rows⟩

/-- The flow at which a query is, after some rows that were handed out. -/
def Query.flow (q : Query) (log : List FetchRequest) (rows : List Value) : Flow :=
  .of q.root q.control log (rows ++ q.pending.toList)

/-- What steps of the operators do not change. -/
def Control.account (c : Control) : Bool × Bool × Capacity × Capacity × Option Capacity :=
  (c.fetchDone, c.needsContinuation, c.callConsumed, c.totalConsumed, c.compileCost)

namespace Operator

/-- A step within a call is the step of the flow, or it is cut short. -/
inductive Follows (op : Operator) (c : Control) (t : Step Operator) : Prop where
  | whole (he : (op.step c.bare).bare = t.bare) (ha : t.control.account = c.account)
      (hr : c.fetchDone = true → t.signal.asks = false)
  | cut (hc : c.fetchDone = true) (hs : t.signal = .dry)
      (hn : t.control.needsContinuation = true) (hstate : (op.step c.bare).state = t.state)
      (hcontrol : (op.step c.bare).control.bare = t.control.bare)
      (ht : t.control.totalConsumed = c.totalConsumed)
      (hk : t.control.compileCost = c.compileCost)
      (hw : op.Awaits (op.step c.bare))

theorem step_follows (op : Operator) {c : Control} (hc : c.needsContinuation = false) :
    op.Follows c (op.step c) := by
  have hb : c.bare.frame.Fresh := ⟨rfl, rfl⟩
  cases hf : c.fetchDone with
  | false =>
    have h := op.step_within (φ := c.frame) hb ⟨hf, hc⟩
    rw [c.within_frame] at h
    refine .whole ?_ ?_ (by simp [hf])
    · rw [h]
      rfl
    · rw [h]
      rfl
  | true =>
    obtain ⟨h, ha⟩ | ⟨h, hw⟩ := op.step_spent (φ := c.frame) hb ⟨hf, hc⟩
    · rw [c.within_frame] at h
      rw [h]
      exact .whole rfl rfl fun _ => ha
    · rw [c.within_frame] at h
      rw [h]
      exact .cut hf rfl rfl rfl rfl rfl rfl hw

/-- A tree that waits for a batch stays as it is while its call begins anew. -/
theorem Awaits.step_eq {op : Operator} {c : Control} (hc : c.frame.Fresh)
    (h : op.Awaits (op.step c)) {e : Control} (he : e.frame.Fresh)
    (hb : e.bare = (op.step c).control.bare) :
    (op.step c).state.step e = ⟨(op.step c).signal, (op.step c).state, e⟩ := by
  generalize ht : op.step c = t at h hb
  have hf : t.control.frame.Fresh := ht ▸ op.step_fresh hc
  have hx : t = (t.state.step t.control.bare).within t.control.frame := by
    have := t.state.step_within (c := t.control.bare) ⟨rfl, rfl⟩ hf
    rw [t.control.within_frame, h.again] at this
    exact this
  have hy : t.state.step e = (t.state.step t.control.bare).within e.frame := by
    rw [← hb, ← e.within_frame]
    exact t.state.step_within ⟨rfl, rfl⟩ he
  generalize t.state.step t.control.bare = x at hx hy
  have hv : x.control.events = [] := by
    have := congrArg (·.control.events) hx
    simpa [Step.within, Control.within, Control.frame] using this
  have hxe : x.control.within e.frame = x.control.bare.within e.frame := by
    simp [Control.within, Control.bare, Control.blank, hv]
  have hxb : x.control.bare = t.control.bare := by
    rw [hx]
    rfl
  rw [hy, Step.within, hxe, hxb, ← hb, e.within_frame, hx]
  rfl

variable {servers : Servers} {log : List FetchRequest} {rows : List Value}

theorem pull_leads (servers : Servers) (log : List FetchRequest) (rows : List Value)
    (op : Operator) {c : Control} (hc : c.needsContinuation = false) :
    ∃ (p : Operator) (d : Control),
      (Flow.of op c log rows).Leads servers (Flow.of p d log rows) ∧ d.account = c.account ∧
      op.pull c = p.step d ∧ (op.pull c).signal ≠ .more := by
  induction h : op.work using Nat.strongRecOn generalizing op c with
  | ind n ih =>
    rw [pull_eq]
    split
    · rename_i hm
      have hlt : (op.step c).state.work < op.work := step_work_lt (by rw [hm]; rfl)
      rcases op.step_follows hc with ⟨he, ha, -⟩ | ⟨-, hs⟩
      · have hn : (op.step c).control.needsContinuation = false :=
          (congrArg (·.2.1) ha).trans hc
        obtain ⟨p, d, hl, hd, hp, hr⟩ := ih _ (h ▸ hlt) (op.step c).state hn rfl
        refine ⟨p, d, .head ?_ hl, hd.trans ha, hp, hr⟩
        have hstep : (Flow.of op c log rows).step = (op.step c).bare := he
        simp only [Flow.next, hstep]
        simp only [Step.bare, hm, Flow.of, Option.some.injEq, Flow.mk.injEq, true_and, and_true]
        exact ⟨(congrArg (·.2.2.2.1) ha).symm, (congrArg (·.2.2.2.2) ha).symm⟩
      · rw [hs] at hm
        cases hm
    · rename_i hm
      exact ⟨op, c, .refl, rfl, rfl, hm⟩

end Operator

theorem Operator.pull_settings (op : Operator) (c : Control) :
    (op.pull c).control.settings = c.settings := by
  induction h : op.work using Nat.strongRecOn generalizing op c with
  | ind n ih =>
    have hs := op.step_settings c
    rw [pull_eq]
    split
    · rename_i hm
      have hlt : (op.step c).state.work < op.work := step_work_lt (by rw [hm]; rfl)
      exact (ih _ (h ▸ hlt) _ _ rfl).trans hs
    · exact hs

namespace Query
variable {servers : Servers} {log : List FetchRequest} {rows : List Value}
  {rowLimit : Option Nat}

/-- Where along a flow the pulling of rows leaves a query. -/
inductive Reached (servers : Servers) (log : List FetchRequest) (rows : List Value) (f : Flow) :
    Progress × Query → Prop where
  | more {g : Flow} {r : Query} (hl : f.Leads servers g) (ha : g.Alike (r.flow log rows))
    (hr : r.flow log rows = g ∨
      g.root.leaf = g.step.state.leaf ∧
        r.flow log rows = { g with root := g.step.state, control := g.step.control }) :
    Reached servers log rows f (.finished true, r)
  | ended {g : Flow} {r : Query} (hl : f.Leads servers g) (he : g.Ends)
    (hr : r.flow log rows = { g with root := g.step.state, control := g.step.control }) :
    Reached servers log rows f (.finished false, r)
  | waiting {g : Flow} {r : Query} {request : FetchRequest} (hl : f.Leads servers g)
    (hg : g.step.signal = .request request) (ha : g.Alike (r.flow log rows))
    (hr : r.flow log rows = { g with root := g.step.state, control := g.step.control })
    (hf : r.control.frame.Fresh)
    (hw : ∀ e : Control, e.frame.Fresh → e.bare = r.control.bare →
      r.root.step e = ⟨.request request, r.root, e⟩) :
    Reached servers log rows f (.waiting request, r)
  | failed {e : QueryError} {r : Query} : Reached servers log rows f (.failed e, r)

theorem Reached.of_leads {f g : Flow} {p : Progress × Query} (hl : f.Leads servers g)
    (h : Reached servers log rows g p) : Reached servers log rows f p := by
  cases h with
  | more hg ha hr => exact .more (hl.trans hg) ha hr
  | ended hg he hr => exact .ended (hl.trans hg) he hr
  | waiting hg hs ha hr hf hw => exact .waiting (hl.trans hg) hs ha hr hf hw
  | failed => exact .failed

/-- A query after its operators took some steps. -/
def moved (q : Query) (t : Step Operator) : Query :=
  { q with root := t.state, control := t.control }

theorem advance_eq (q : Query) : q.advance rowLimit =
    if rowLimit.any (· ≤ q.pending.size) then (.finished true, q)
    else
      let t := q.root.pull q.control
      match t.signal with
      | .row => { q.moved t with pending := q.pending.push (t.control.reg t.state.reg) }.advance
          rowLimit
      | .request request => (.waiting request, q.moved t)
      | .fail e => (.failed e, q.moved t)
      | .dry | .more => (.finished t.control.needsContinuation, q.moved t) := by
  rw [advance]
  split
  · rfl
  · simp only
    split <;> rename_i h <;> simp only [h] <;> rfl

/-- Pulling rows keeps what all steps of the scan keep, and only the scan asks for a batch. -/
theorem advance_leaf {P : Scan → Prop} (hP : ∀ s c, P s → P (s.step c).state)
    (rowLimit : Option Nat) {q : Query} (h : P q.root.leaf) :
    P (q.advance rowLimit).2.root.leaf ∧
      ∀ request, (q.advance rowLimit).1 = .waiting request →
        ∃ d, ((q.advance rowLimit).2.root.leaf.step d).signal = .request request := by
  induction hn : q.root.work using Nat.strongRecOn generalizing q with
  | ind n ih =>
    obtain ⟨hl, hr⟩ := q.root.pull_leaf hP q.control h
    have hw := q.root.pull_work q.control
    rw [advance_eq]
    split
    · exact ⟨h, nofun⟩
    · simp only
      split
      · rename_i hrow
        exact ih _ (hn ▸ hw.2 hrow)
          (q := { q.moved (q.root.pull q.control) with pending := _ }) hl rfl
      · rename_i request hrequest
        refine ⟨hl, fun request' he => ?_⟩
        cases he
        exact hr request hrequest
      · exact ⟨hl, nofun⟩
      · exact ⟨hl, nofun⟩
      · exact ⟨hl, nofun⟩

/-- A step that waits for a batch leaves the flow where it was. -/
theorem alike_of_awaits {op : Operator} {c : Control} {t : Step Operator}
    (hw : op.Awaits (op.step c.bare)) (hs : (op.step c.bare).state = t.state)
    (hb : (op.step c.bare).control.bare = t.control.bare)
    (ht : t.control.totalConsumed = c.totalConsumed)
    (hk : t.control.compileCost = c.compileCost) :
    (Flow.of op c log rows).Alike (.of t.state t.control log rows) := by
  have he := hw.step_eq (e := t.control.bare) ⟨rfl, rfl⟩ ⟨rfl, rfl⟩ hb.symm
  refine ⟨?_, ht.symm, hk.symm, rfl, rfl⟩
  change (op.step c.bare).bare = (t.state.step t.control.bare).bare
  rw [← hs, he]
  simp only [Step.bare, hb, Control.bare_bare]

theorem advance_reached (servers : Servers) (log : List FetchRequest) (rows : List Value)
    (rowLimit : Option Nat) (q : Query) (hc : q.control.needsContinuation = false) :
    Reached servers log rows (q.flow log rows) (q.advance rowLimit) := by
  induction h : q.root.work using Nat.strongRecOn generalizing q with
  | ind n ih =>
    rw [advance_eq]
    split
    · exact .more .refl (.refl _) (.inl rfl)
    · obtain ⟨p, d, hl, hd, hp, hm⟩ :=
        q.root.pull_leads servers log (rows ++ q.pending.toList) hc
      have hdn : d.needsContinuation = false := (congrArg (·.2.1) hd).trans hc
      have hw := q.root.pull_work q.control
      have hf := p.step_follows hdn
      refine .of_leads hl ?_
      simp only
      generalize ht : q.root.pull q.control = t at hp hm hw
      rw [← hp] at hf
      rcases hf with ⟨he, ha, hr⟩ | ⟨-, hs, hn, hst, hct, htot, hk, haw⟩
      · have hstep : (Flow.of p d log (rows ++ q.pending.toList)).step = t.bare := he
        have htn : t.control.needsContinuation = false := (congrArg (·.2.1) ha).trans hdn
        have htot : t.control.totalConsumed = d.totalConsumed := congrArg (·.2.2.2.1) ha
        have hk : t.control.compileCost = d.compileCost := congrArg (·.2.2.2.2) ha
        cases hs : t.signal with
        | more => exact (hm hs).elim
        | fail e => exact .failed
        | row =>
          have hnext := ih _ (h ▸ hw.2 hs)
            { q.moved t with pending := q.pending.push (t.control.reg t.state.reg) } htn rfl
          refine hnext.of_leads (.single ?_)
          simp only [Flow.next, hstep]
          simp [Step.bare, hs, flow, moved, Flow.of, htot, hk]
        | dry =>
          simp only [htn]
          refine .ended .refl (by simp [Flow.Ends, hstep, Step.bare, hs]) ?_
          rw [hstep]
          simp [flow, moved, Flow.of, Step.bare, htot, hk]
        | request request =>
          have hst : (p.step d.bare).state = t.state := congrArg (·.state) he
          have hct : (p.step d.bare).control.bare = t.control.bare := congrArg (·.control) he
          have hsig : (p.step d.bare).signal = .request request := (congrArg (·.signal) he).trans hs
          have haw := p.awaits_of_request ⟨rfl, rfl⟩ hsig
          have hfd : t.control.fetchDone = false := by
            rw [show t.control.fetchDone = d.fetchDone from congrArg (·.1) ha, ← Bool.not_eq_true]
            intro h
            simpa [hs, Signal.asks] using hr h
          refine .waiting .refl (by simp [hstep, Step.bare, hs])
            (alike_of_awaits haw hst hct htot hk) ?_ ⟨hfd, htn⟩ ?_
          · rw [hstep]
            simp [flow, moved, Flow.of, Step.bare, htot, hk]
          · intro e he hb
            have := haw.step_eq ⟨rfl, rfl⟩ he (hb.trans hct.symm)
            rwa [hst, hsig] at this
      · simp only [hs, hn]
        refine .more .refl (alike_of_awaits haw hst hct htot hk) (.inr ⟨haw.leaf.symm, ?_⟩)
        simp [flow, moved, Flow.of, Flow.step, Step.bare, hst, hct, htot, hk]

theorem advance_waiting (q : Query) {r : Query} {request : FetchRequest}
    (h : q.advance rowLimit = (.waiting request, r)) :
    rowLimit.any (· ≤ r.pending.size) = false := by
  induction hn : q.root.work using Nat.strongRecOn generalizing q with
  | ind n ih =>
    have hw := q.root.pull_work q.control
    rw [advance_eq] at h
    split at h
    · cases h
    · rename_i hl
      simp only at h
      split at h
      · rename_i hr
        exact ih _ (hn ▸ hw.2 hr) _ h rfl
      · cases h
        exact Bool.not_eq_true _ ▸ hl
      · cases h
      · cases h
      · cases h

/-- A query that waits for a batch has not spent its fetch, and gets no further when its call begins
anew. -/
theorem advance_again {q r : Query} {request : FetchRequest}
    (hc : q.control.needsContinuation = false)
    (h : q.advance rowLimit = (.waiting request, r)) :
    r.control.frame.Fresh ∧ r.quiet.advance rowLimit = (.waiting request, r.quiet) := by
  have ha := advance_reached (fun _ _ => .ok { rows := [] }) [] [] rowLimit q hc
  rw [h] at ha
  cases ha with
  | waiting _ _ _ _ hf hw =>
    have hs : r.quiet.root.step r.quiet.control = ⟨.request request, r.root, r.quiet.control⟩ :=
      hw r.quiet.control hf rfl
    refine ⟨hf, ?_⟩
    have hl := q.advance_waiting h
    have hp : r.quiet.root.pull r.quiet.control = ⟨.request request, r.root, r.quiet.control⟩ := by
      rw [Operator.pull_eq, hs]
      rfl
    rw [advance_eq, show rowLimit.any (· ≤ r.quiet.pending.size) = false from hl, hp]
    rfl

/-- What no call changes in a query. -/
def identity (q : Query) : Uuid × SharedPlan × Nat × (List (Option Value) × Config × Nat) :=
  (q.id, q.plan, q.sequence, q.control.settings)

theorem advance_identity (rowLimit : Option Nat) (q : Query) :
    (q.advance rowLimit).2.identity = q.identity := by
  induction h : q.root.work using Nat.strongRecOn generalizing q with
  | ind n ih =>
    have hw := q.root.pull_work q.control
    have hs := q.root.pull_settings q.control
    rw [advance_eq]
    split
    · rfl
    · simp only
      generalize q.root.pull q.control = t at hw hs
      have hm : (q.moved t).identity = q.identity := by
        simp only [identity, moved, hs]
      split
      · rename_i hr
        exact (ih _ (h ▸ hw.2 hr) _ rfl).trans hm
      · exact hm
      · exact hm
      · exact hm
      · exact hm

theorem deliver_identity (rowLimit : Option Nat) (q : Query) (batch : Batch) :
    (q.deliver rowLimit batch).2.identity = q.identity := by
  have hs : _ = q.control.settings :=
    (q.root.deliver_framed batch).settings (q.control.recordBatch batch)
  simp only [deliver]
  generalize q.root.deliver (q.control.recordBatch batch) batch = x at hs
  obtain ⟨_ | e, root, control⟩ := x
  · refine (advance_identity ..).trans ?_
    simp only [identity]
    exact congrArg (fun s => (q.id, q.plan, q.sequence, s)) hs
  · simp only [identity]
    exact congrArg (fun s => (q.id, q.plan, q.sequence, s)) hs

theorem issue_eq {q : Query} {request : FetchRequest} (hf : q.control.frame.Fresh) :
    q.issue request = .ok { q with
      control := { q.control with fetchDone := true }.emit (.fetchIssued request.limit) } := by
  have h : q.control.fetchDone = false := hf.1
  simp only [issue, Control.beginFetch, h]
  rfl

/-- A call spends its fetch once, and notes it. -/
theorem issue_ok {q r : Query} {request : FetchRequest} (hi : q.issue request = .ok r) :
    r = { q with
      control := { q.control with fetchDone := true }.emit (.fetchIssued request.limit) } := by
  unfold issue Control.beginFetch at hi
  split at hi
  · cases hi
  · cases hi
    rfl

/-- A batch takes a query one step along the flow, whatever its call does afterwards. -/
theorem deliver_reached {g : Flow} {q : Query} {request : FetchRequest} {batch : Batch}
    (hc : q.control.needsContinuation = false) (hg : g.step.signal = .request request)
    (hb : servers log request = .ok batch)
    (hr : q.flow log rows = { g with root := g.step.state, control := g.step.control }) :
    Reached servers (request :: log) rows g (q.deliver rowLimit batch) := by
  have hroot : q.root = g.step.state := congrArg Flow.root hr
  have hcontrol : q.control.bare = g.step.control := congrArg Flow.control hr
  have htotal : q.control.totalConsumed = g.total := congrArg Flow.total hr
  have hcost : q.control.compileCost = g.cost := congrArg Flow.cost hr
  have hlog : log = g.log := congrArg Flow.log hr
  have hrows : rows ++ q.pending.toList = g.rows := congrArg Flow.rows hr
  have hd := (q.root.deliver_framed batch).frame q.control.bare (q.control.recordBatch batch).frame
  have he : q.control.bare.within (q.control.recordBatch batch).frame =
      q.control.recordBatch batch := rfl
  simp only [he] at hd
  simp only [deliver, hd]
  generalize hx : q.root.deliver q.control.bare batch = x
  obtain ⟨_ | e, root, control⟩ := x
  · refine .of_leads (.single ?_) (advance_reached _ _ _ _ _ hc)
    rw [hroot, hcontrol] at hx
    simp only [Flow.next, hg, ← hlog, hb, hx]
    simp [flow, Flow.of, Carries.onControl, Control.within, Control.frame, Control.recordBatch,
      htotal, hcost, hrows]
    rfl
  · exact .failed

theorem Runs.reached {q r : Query} {more : Bool} {log' : List FetchRequest}
    (h : q.Runs servers rowLimit log more r log') (rows : List Value)
    (hc : q.control.needsContinuation = false) :
    Reached servers log' rows (q.flow log rows) (.finished more, r) := by
  have ha := advance_reached servers log rows rowLimit q hc
  cases h with
  | idle h => rwa [h] at ha
  | fetched hw hi hb hd =>
    rw [hw] at ha
    cases ha with
    | @waiting g _ _ hl hg _ hr hf _ =>
      rw [issue_eq hf] at hi
      cases hi
      rw [← hd]
      exact .of_leads hl (deliver_reached (q := quiet _) hf.2 hg hb hr)

theorem Runs.identity {q r : Query} {more : Bool} {log' : List FetchRequest}
    (h : q.Runs servers rowLimit log more r log') : r.identity = q.identity := by
  cases h with
  | idle h => rw [← q.advance_identity rowLimit, h]
  | fetched hw hi hb hd =>
    rename_i s t request batch
    have h1 : s.identity = q.identity := by
      rw [← q.advance_identity rowLimit, hw]
    have h2 : t.identity = s.identity := by
      simp only [issue, Control.beginFetch] at hi
      split at hi
      · cases hi
      · cases hi
        rfl
    have h3 := t.quiet.deliver_identity rowLimit batch
    rw [hd] at h3
    exact h3.trans (h2.trans h1)

end Query

/-! ## Calls of a drain -/

namespace Site
variable {servers : Servers} {errand : Errand} {first : CallOptions} {rest : List CallOptions}
  {token : Option Token} {w : Site} {q : Query}

theorem call_log (options : CallOptions) (token : Option Token) (w : Site) :
    w.log <:+ (w.call servers errand options token).1.log := by
  unfold call
  split
  · exact List.suffix_refl _
  · exact List.suffix_cons ..

/-- A call of an idle query that ends well: the query runs, and if there is more to come it rests
where the new token finds it. -/
structure Turn (servers : Servers) (errand : Errand) (options : CallOptions) (w : Site) (q : Query)
    (w' : Site) (more : Bool) (r : Query) : Prop where
  rowLimit : options.rowLimit ≠ some 0
  runs : (q.begun (options.maxMemory.getD w.client.config.maxMemory)).Runs servers
    options.rowLimit w.log more r w'.log
  config : w'.client.config = w.client.config
  idle : Client.Idle errand r.rested
  opened : more = true → w'.client.opened errand (some ⟨r.id, r.sequence + 1⟩) = .ok r.rested

/-- What the first call makes of a drain. -/
inductive Begins (servers : Servers) (errand : Errand) (first : CallOptions)
    (rest : List CallOptions) (w : Site) (q : Query) : Drained → Prop where
  | failed {w' : Site} {e : QueryError} (hlog : w.log <:+ w'.log) :
    Begins servers errand first rest w q ⟨[], .failed e, w'⟩
  | last {w' : Site} {r : Query} (h : Turn servers errand first w q w' false r) :
    Begins servers errand first rest w q ⟨[Client.reportOf false r], .complete, w'⟩
  | paused {w' : Site} {r : Query} (h : Turn servers errand first w q w' true r) :
    Begins servers errand first rest w q
      ((w'.drain servers errand rest (some ⟨r.id, r.sequence + 1⟩)).after
        (Client.reportOf true r))

theorem drain_begins (servers : Servers) (first : CallOptions) (rest : List CallOptions)
    (hq : w.client.opened errand token = .ok q) (hi : Client.Idle errand q) :
    Begins servers errand first rest w q (w.drain servers errand (first :: rest) token) := by
  rcases hc : w.call servers errand first token with ⟨w', e | o⟩
  · have hlog : w.log <:+ (w.call servers errand first token).1.log := call_log ..
    rw [hc] at hlog
    rw [drain_of_error hc]
    exact .failed hlog
  obtain ⟨hz, q', c, more, r, hq', hr, hcc, hs⟩ := call_ok hc
  obtain rfl : q' = q := by
    rw [hq] at hq'
    cases hq'
    rfl
  obtain rfl : Client.reportOf more r = o := by
    have := c.settle_result r more
    rw [hs] at this
    cases this
    rfl
  have hconfig : w'.client.config = w.client.config := by
    rw [← hcc, ← c.settle_config r more, hs]
  have hidle : Client.Idle errand r.rested :=
    ⟨(congrArg (·.2.1.agrees errand.plan) hr.identity).trans hi.agrees, rfl⟩
  cases more with
  | false =>
    rw [drain_of_last hc rfl]
    exact .last ⟨hz, hr, hconfig, hidle, nofun⟩
  | true =>
    have hopen := Client.opened_settle (c := c) (q := r) hidle.agrees
    rw [hs] at hopen
    rw [drain_of_token hc rfl]
    exact .paused ⟨hz, hr, hconfig, hidle, fun _ => hopen⟩

/-- Without a query there is no call that ends well. -/
theorem drain_unopened (servers : Servers) (first : CallOptions) (rest : List CallOptions)
    {e : QueryError} (h : w.client.opened errand token = .error e) :
    ∃ w' e', w.drain servers errand (first :: rest) token = ⟨[], .failed e', w'⟩ := by
  rcases hc : w.call servers errand first token with ⟨w', e' | o⟩
  · exact ⟨w', e', drain_of_error hc⟩
  · obtain ⟨-, q, -, -, -, hq, -⟩ := call_ok hc
    rw [h] at hq
    cases hq

end Site
end ShardQuery
