import Mathlib.Logic.Relator
import ShardQuery.Proofs.Session.Visits

/-!
Queries under other ids. The id of a query names it and makes no other difference: clients whose
queries differ in their ids only go on alike, call by call, and so do the answers.
-/

namespace ShardQuery

/-! ## One query -/

namespace Query

theorem advance_id (rowLimit : Option Nat) (q : Query) (id : Uuid) :
    Query.advance rowLimit { q with id } =
      ((q.advance rowLimit).1, { (q.advance rowLimit).2 with id }) := by
  induction h : q.root.work using Nat.strongRecOn generalizing q with
  | ind n ih =>
    have hw := q.root.pull_work q.control
    rw [advance_eq q, advance_eq]
    simp only
    generalize q.root.pull q.control = t at hw
    split
    · rfl
    · cases hs : t.signal with
      | row =>
        have hlt : t.state.work < n := h ▸ hw.2 hs
        exact ih _ hlt
          { q.moved t with pending := q.pending.push (t.control.reg t.state.reg) } rfl
      | _ => rfl

theorem deliver_id (rowLimit : Option Nat) (q : Query) (id : Uuid) (batch : Batch) :
    Query.deliver rowLimit { q with id } batch =
      ((q.deliver rowLimit batch).1, { (q.deliver rowLimit batch).2 with id }) := by
  rw [deliver_eq q, deliver_eq]
  simp only
  split
  · rfl
  · exact advance_id rowLimit (q.received batch) id

theorem issue_id (q : Query) (id : Uuid) (request : FetchRequest) :
    Query.issue { q with id } request = (q.issue request).map fun r => { r with id } := by
  unfold issue
  cases q.control.beginFetch request <;> rfl

theorem ofPlan_id (id id' : Uuid) (plan : SharedPlan) (externals : List (Option Value))
    (config : Config) : ofPlan id' plan externals config =
      (ofPlan id plan externals config).map fun q => { q with id := id' } := by
  unfold ofPlan
  cases plan.plan.validate with
  | error e => rfl
  | ok _ =>
    cases Operator.ofStep plan.plan.shards plan.plan.root <;> rfl

end Query

/-! ## What callers see -/

variable (R : Uuid → Uuid → Prop)

/-- The same query under another id. -/
inductive Query.Renamed (q : Query) : Query → Prop
  | to {id : Uuid} (h : R q.id id) : Query.Renamed q { q with id }

/-- The same token of a query under another id. -/
structure Token.Renamed (s t : Token) : Prop where
  query : R s.query t.query
  sequence : t.sequence = s.sequence

/-- The same outcome, with a token that names its query by another id. -/
structure Outcome.Renamed (o p : Outcome) : Prop where
  rows : p.rows = o.rows
  token : Option.Rel (Token.Renamed R) o.token p.token
  consumed : p.consumed = o.consumed
  total : p.total = o.total
  memory : p.memory = o.memory

/-- The same error, with another id in its text if it tells of a token. -/
inductive QueryError.Renamed : QueryError → QueryError → Prop
  | refl (e : QueryError) : QueryError.Renamed e e
  | unknown {u v : Uuid} (h : R u v) : QueryError.Renamed
    (.invalidContinuation s!"no suspended query {u.text}")
    (.invalidContinuation s!"no suspended query {v.text}")
  | stale {u v : Uuid} (h : R u v) (presented expected : Nat) : QueryError.Renamed
    (.invalidContinuation (s!"stale token for query {u.text}: call " ++
      s!"{presented} presented, call {expected} expected"))
    (.invalidContinuation (s!"stale token for query {v.text}: call " ++
      s!"{presented} presented, call {expected} expected"))

/-- The same, or the same failure. -/
inductive Tally {α : Type} (same : α → α → Prop) : Except QueryError α → Except QueryError α → Prop
  | ok {a b : α} (h : same a b) : Tally same (.ok a) (.ok b)
  | error {e f : QueryError} (h : e.Renamed R f) : Tally same (.error e) (.error f)

/-- The same call, of a query under another id. -/
inductive Call.Renamed (k : Call) : Call → Prop
  | to {id : Uuid} (h : R k.query.id id) : Call.Renamed k { k with query := { k.query with id } }

inductive CallState.Renamed : CallState → CallState → Prop
  | waiting {k l : Call} (h : k.Renamed R l) : CallState.Renamed (.waiting k) (.waiting l)
  | done {x y : Except QueryError Outcome} (h : Tally R (Outcome.Renamed R) x y) :
    CallState.Renamed (.done x) (.done y)

/-- Clients that keep the same queries under other ids. They may have counted and logged anything,
and may keep any other queries. -/
structure Client.Renamed (c d : Client) : Prop where
  config : d.config = c.config
  found : ∀ u v, R u v → Option.Rel (Query.Renamed R) (c.find? u) (d.find? v)

/-! ## Clients -/

namespace Client
variable {R} {c c' d d' : Client} {q r : Query} {u v id : Uuid} {options : CallOptions}
  {s t : Token}

theorem find?_of_suspended (h : d.suspended = c.suspended) (u : Uuid) : d.find? u = c.find? u :=
  congrArg (List.find? _) h

theorem find?_remove (c : Client) (id u : Uuid) :
    (c.remove id).find? u = if u = id then none else c.find? u := by
  simp only [find?, remove, List.find?_filter]
  split
  · rename_i h
    simp [h]
  · rename_i h
    congr 1
    funext q
    by_cases hq : q.id = u <;> simp [hq, h]

theorem find?_keep_eq (c : Client) (q : Query) (u : Uuid) :
    (c.keep q).find? u = if u = q.id then some q else c.find? u := by
  split
  · rename_i h
    rw [h, find?_keep]
  · rename_i h
    have hne : (q.id == u) = false := by simpa using fun hq : q.id = u => h hq.symm
    have := c.find?_remove q.id u
    rw [if_neg h] at this
    rw [← this, find?, keep, List.find?_cons_of_neg (by simp [hne])]
    rfl

namespace Renamed

theorem congr (h : c.Renamed R d) (hc : c'.config = c.config) (hcs : c'.suspended = c.suspended)
    (hd : d'.config = d.config) (hds : d'.suspended = d.suspended) : c'.Renamed R d' where
  config := by rw [hd, hc, h.config]
  found u v hu := by
    rw [find?_of_suspended hcs, find?_of_suspended hds]
    exact h.found u v hu

theorem eq_iff (hR : Relator.BiUnique R) {u' v' : Uuid} (h : R u v) (h' : R u' v') :
    u = u' ↔ v = v' :=
  ⟨fun hu => hR.2 h (hu ▸ h'), fun hv => hR.1 h (hv ▸ h')⟩

theorem remove (hR : Relator.BiUnique R) (h : c.Renamed R d) (hu : R u v) :
    (c.remove u).Renamed R (d.remove v) where
  config := h.config
  found u' v' hu' := by
    rw [find?_remove, find?_remove, if_congr (eq_iff hR hu' hu) rfl rfl]
    split
    · exact .none
    · exact h.found u' v' hu'

theorem keep (hR : Relator.BiUnique R) (h : c.Renamed R d) (hq : q.Renamed R r) :
    (c.keep q).Renamed R (d.keep r) where
  config := h.config
  found u v hu := by
    obtain ⟨hid⟩ := hq
    rw [find?_keep_eq, find?_keep_eq, if_congr (eq_iff hR hu hid) rfl rfl]
    split
    · exact .some ⟨hid⟩
    · exact h.found u v hu

/-- Ends of calls that leave the clients, and the callers, with the same but for the ids. -/
structure Ends (R : Uuid → Uuid → Prop) (x y : Client × Except QueryError Outcome) : Prop where
  client : x.1.Renamed R y.1
  result : Tally R (Outcome.Renamed R) x.2 y.2

theorem settle (hR : Relator.BiUnique R) (h : c.Renamed R d) (more : Bool) (hq : R q.id id) :
    Ends R (c.settle more q) (d.settle more (.of { q with id })) := by
  constructor
  · cases more with
    | true =>
      have hrested : q.rested.Renamed R (Query.rested { q with id }) := ⟨hq⟩
      exact (h.keep hR hrested).congr (c.settle_config q true) (c.settle_suspended q)
        (d.settle_config _ true) (d.settle_suspended _)
    | false =>
      exact h.congr (c.settle_config q false) (c.suspended_collect q) (d.settle_config _ false)
        (d.suspended_collect _)
  · rw [settle_result, settle_result]
    cases more with
    | true => exact .ok ⟨rfl, .some ⟨hq, rfl⟩, rfl, rfl, rfl⟩
    | false => exact .ok ⟨rfl, .none, rfl, rfl, rfl⟩

theorem settleError (hR : Relator.BiUnique R) (h : c.Renamed R d) (fresh : Bool) (hq : R q.id id)
    (e : QueryError) :
    Ends R (c.settleError fresh q e) (d.settleError fresh (.of { q with id }) e) := by
  constructor
  · cases hl : fresh || !e.isRetryable with
    | true =>
      exact h.congr (c.settleError_config q fresh e) (settleError_lost hl)
        (d.settleError_config _ fresh e) (settleError_lost hl)
    | false =>
      obtain ⟨rfl, hr⟩ : fresh = false ∧ e.isRetryable = true := by simpa using hl
      have hquiet : q.quiet.Renamed R (Query.quiet { q with id }) := ⟨hq⟩
      exact (h.keep hR hquiet).congr (c.settleError_config q false e)
        (c.settleError_suspended q hr) (d.settleError_config _ false e)
        (d.settleError_suspended _ hr)
  · rw [settleError_result, settleError_result]
    exact .error (.refl e)

theorem conclude (hR : Relator.BiUnique R) (h : c.Renamed R d) (fresh : Bool)
    {x : Progress × Query} (hx : R x.2.id id) :
    Ends R (c.conclude fresh x) (d.conclude fresh (x.1, { x.2 with id })) := by
  obtain ⟨request | more | e, q⟩ := x
  · exact h.settleError hR fresh hx Control.secondFetch
  · exact h.settle hR more hx
  · exact h.settleError hR fresh hx e

theorem finish (hR : Relator.BiUnique R) (h : c.Renamed R d) {k l : Call} (hk : k.Renamed R l)
    (fate : Fate) : Ends R (c.finish k fate) (d.finish l fate) := by
  obtain ⟨hid⟩ := hk
  rcases fate with ⟨batch | e | _⟩ | milliseconds
  · have hd : (k.query.deliver k.options.rowLimit batch).2.id = k.query.id :=
      congrArg (·.1) (k.query.deliver_label k.options.rowLimit batch)
    have hc := h.conclude hR k.fresh (x := k.query.deliver k.options.rowLimit batch) (hd ▸ hid)
    rwa [← Query.deliver_id] at hc
  · exact h.settleError hR k.fresh (q := k.query.fetchFailed (.fetch e)) hid (.fetch e)
  · exact h.settleError hR k.fresh (q := Query.fetchFailed { k.query with
      control := k.query.control.emit .fetchCancelled } .cancelled) hid .cancelled
  · exact h.settleError hR k.fresh hid (.timeout milliseconds)

/-- Beginnings of calls that leave the clients, and the callers, with the same but for the ids. -/
structure Starts (R : Uuid → Uuid → Prop) (x y : Client × CallState) : Prop where
  client : x.1.Renamed R y.1
  state : x.2.Renamed R y.2

theorem Ends.starts {x y : Client × Except QueryError Outcome} (h : Ends R x y) :
    Starts R (x.1, .done x.2) (y.1, .done y.2) := ⟨h.client, .done h.result⟩

theorem run (hR : Relator.BiUnique R) (h : c.Renamed R d) (options : CallOptions) (fresh : Bool)
    (hq : R q.id id) :
    Starts R (c.run options fresh q) (d.run options fresh (.of { q with id })) := by
  rw [run_eq, run_eq, h.config]
  -- both calls come to the same point, with the ids that they had
  have hid := congrArg (·.1) (Query.advance_label options.rowLimit
    (q.begun (options.maxMemory.getD c.config.maxMemory)))
  have ha := Query.advance_id options.rowLimit
    (q.begun (options.maxMemory.getD c.config.maxMemory)) id
  change Query.advance options.rowLimit (Query.begun { q with id } _) = _ at ha
  rw [ha]
  generalize (q.begun (options.maxMemory.getD c.config.maxMemory)).advance options.rowLimit = x
    at hid
  obtain ⟨request | more | e, r⟩ := x
  all_goals
    replace hid : R r.id id := (show r.id = q.id from hid) ▸ hq
  · simp only [follow, Query.issue_id]
    cases hi : r.issue request with
    | error e => exact (h.settleError hR fresh hid e).starts
    | ok s =>
      have hs : s.id = r.id := congrArg (·.1) (Query.issue_label hi)
      have hc := h.congr (c.config_collect s) (c.suspended_collect s)
        (d.config_collect { s with id }) (d.suspended_collect { s with id })
      exact ⟨hc, .waiting (.to (k := ⟨s.quiet, options, fresh, request⟩) (hs ▸ hid))⟩
  · exact (h.settle hR more hid).starts
  · exact (h.settleError hR fresh hid e).starts

theorem resume (h : c.Renamed R d) (plan : SharedPlan) (ht : s.Renamed R t) :
    Tally R (Query.Renamed R) (c.resume plan s) (d.resume plan t) := by
  obtain ⟨hquery, hsequence⟩ := ht
  have hf := h.found _ _ hquery
  unfold Client.resume
  generalize c.find? s.query = x at hf
  generalize d.find? t.query = y at hf
  rw [hsequence]
  cases hf with
  | none => exact .error (.unknown hquery)
  | some hq =>
    obtain ⟨hid⟩ := hq
    simp only [Lease.runtime_of]
    split
    · exact .error (.stale hquery ..)
    · split
      · exact .error (.refl _)
      · exact .ok ⟨hid⟩

variable {errand : Errand} {token token' : Option Token}

theorem opened (h : c.Renamed R d) (he : R errand.newId id)
    (ht : Option.Rel (Token.Renamed R) token token') : Tally R (Query.Renamed R)
      (c.opened errand token) (d.opened { errand with newId := id } token') := by
  cases ht with
  | some ht => exact h.resume errand.plan ht
  | none =>
    simp only [Client.opened, h.config]
    cases errand.plan.plan.bind errand.bindings with
    | error e => exact .error (.refl e)
    | ok externals =>
      change Tally R _ (Query.ofPlan errand.newId errand.plan externals c.config)
        (Query.ofPlan id errand.plan externals c.config)
      rw [Query.ofPlan_id errand.newId id]
      cases hp : Query.ofPlan errand.newId errand.plan externals c.config with
      | error e => exact .error (.refl e)
      | ok q =>
        obtain ⟨-, root, -, rfl⟩ := ofPlan_eq hp
        exact .ok (.to he)

theorem entered (hR : Relator.BiUnique R) (h : c.Renamed R d)
    (ht : Option.Rel (Token.Renamed R) token token') (hq : R q.id id) :
    (c.entered errand token q).Renamed R
      (d.entered { errand with newId := v } token' { q with id }) := by
  cases ht with
  | some ht =>
    have hcount : Client.Renamed R { c with metrics := c.metrics.countCall }
        { d with metrics := d.metrics.countCall } := h.congr rfl rfl rfl rfl
    exact hcount.remove hR hq
  | none => exact h.congr rfl rfl rfl rfl

theorem execute (hR : Relator.BiUnique R) (h : c.Renamed R d) (errand : Errand)
    (options : CallOptions) (he : R errand.newId id)
    (ht : Option.Rel (Token.Renamed R) token token') :
    Starts R (c.execute errand.newId errand.plan errand.bindings options token)
      (d.execute id errand.plan errand.bindings options token') := by
  have hcount : Client.Renamed R { c with metrics := c.metrics.countCall }
      { d with metrics := d.metrics.countCall } := h.congr rfl rfl rfl rfl
  have hsome : token'.isNone = token.isNone := by cases ht <;> rfl
  rw [execute_eq, d.execute_eq { errand with newId := id }]
  split
  · exact ⟨hcount, .done (.error (.refl _))⟩
  · have ho := h.opened he ht
    generalize c.opened errand token = x at ho
    generalize d.opened { errand with newId := id } token' = y at ho
    cases ho with
    | error hf => exact ⟨hcount, .done (.error hf)⟩
    | ok hq =>
      obtain ⟨hid⟩ := hq
      rw [hsome]
      exact (h.entered hR ht hid).run hR options _ hid

theorem abandon (hR : Relator.BiUnique R) (h : c.Renamed R d) (ht : s.Renamed R t) :
    (c.abandon s).1.Renamed R (d.abandon t).1 ∧ (d.abandon t).2 = (c.abandon s).2 := by
  have hf := h.found _ _ ht.query
  unfold Client.abandon
  generalize c.find? s.query = x at hf
  generalize d.find? t.query = y at hf
  cases hf with
  | none => exact ⟨h, rfl⟩
  | some hq =>
    obtain ⟨hid⟩ := hq
    refine ⟨(remove hR h ht.query).congr ?_ ?_ ?_ ?_, rfl⟩
    · exact config_collect ..
    · exact suspended_collect ..
    · exact config_collect ..
    · exact suspended_collect ..

end Renamed
end Client
end ShardQuery
