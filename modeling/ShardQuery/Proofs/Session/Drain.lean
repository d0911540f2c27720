import ShardQuery.Session.Client

/-!
Callers that drain a query: each call goes on with the token of the one before it, until there is
none. The servers are arbitrary, but answer by what they were asked and by nothing else.
-/

namespace ShardQuery

/-- Servers, by the requests that they have seen, the latest first, and the one to be answered. -/
abbrev Servers := List FetchRequest → FetchRequest → Except FetchError Batch

def Reply.ofAnswer : Except FetchError Batch → Reply
  | .ok b => .batch b
  | .error e => .failed e

theorem Reply.ok_of_ofAnswer {x : Except FetchError Batch} {batch : Batch}
    (h : ofAnswer x = .batch batch) : x = .ok batch := by
  cases x with
  | error e => cases h
  | ok b =>
    cases h
    rfl

/-- What a caller asks for in all calls of a query. -/
structure Errand where
  newId : Uuid
  plan : SharedPlan
  bindings : Bindings := []

/-- A client and the requests that its servers have answered, the latest first. -/
structure Site where
  client : Client
  log : List FetchRequest := []

/-- How a row of calls ended. -/
inductive Standing where
  | complete
  | failed (e : QueryError)
  /-- There were no more calls to be made. -/
  | suspended (token : Option Token)

/-- What came of a row of calls. -/
structure Drained where
  outcomes : List Outcome
  standing : Standing
  site : Site

namespace Drained

def rows (d : Drained) : List Value := d.outcomes.flatMap (·.rows)

/-- What the query used up in all. -/
def total (d : Drained) : Option Capacity := d.outcomes.getLast?.map (·.total)

/-- What the query held in the end. -/
def memory (d : Drained) : Option Nat := d.outcomes.getLast?.map (·.memory)

/-- A call that ended well before others were made. -/
def after (d : Drained) (outcome : Outcome) : Drained :=
  { d with outcomes := outcome :: d.outcomes }

variable {d : Drained} {o : Outcome}

theorem rows_after : (d.after o).rows = o.rows ++ d.rows := rfl

theorem total_after {c : Capacity} (h : d.total = some c) : (d.after o).total = some c := by
  obtain ⟨x, hx, rfl⟩ := Option.map_eq_some_iff.1 h
  simp [total, after, List.getLast?_cons, hx]

theorem memory_after {n : Nat} (h : d.memory = some n) : (d.after o).memory = some n := by
  obtain ⟨x, hx, rfl⟩ := Option.map_eq_some_iff.1 h
  simp [memory, after, List.getLast?_cons, hx]

end Drained

namespace Site

/-- Lets the servers answer a call. -/
def answer (servers : Servers) (w : Site) (call : Call) : Site × Except QueryError Outcome :=
  let (client, result) := w.client.answer call (.ofAnswer (servers w.log call.request))
  (⟨client, call.request :: w.log⟩, result)

/-- One call from its beginning to its end. -/
def call (servers : Servers) (errand : Errand) (options : CallOptions) (token : Option Token)
    (w : Site) : Site × Except QueryError Outcome :=
  match w.client.execute errand.newId errand.plan errand.bindings options token with
  | (client, .done result) => ({ w with client }, result)
  | (client, .waiting call) => answer servers { w with client } call

/-- Calls until there is no token left to go on with or a call fails. -/
def drain (servers : Servers) (errand : Errand) :
    List CallOptions → Option Token → Site → Drained
  | [], token, w => ⟨[], .suspended token, w⟩
  | options :: rest, token, w =>
    match w.call servers errand options token with
    | (w, .error e) => ⟨[], .failed e, w⟩
    | (w, .ok outcome) =>
      match outcome.token with
      | none => ⟨[outcome], .complete, w⟩
      | some token => (drain servers errand rest (some token) w).after outcome

section
variable {servers : Servers} {errand : Errand} {options : CallOptions} {rest : List CallOptions}
  {token : Option Token} {w w' : Site} {o : Outcome}

theorem drain_of_error {e : QueryError} (h : w.call servers errand options token = (w', .error e)) :
    w.drain servers errand (options :: rest) token = ⟨[], .failed e, w'⟩ := by
  simp only [drain, h]

theorem drain_of_last (h : w.call servers errand options token = (w', .ok o))
    (ht : o.token = none) :
    w.drain servers errand (options :: rest) token = ⟨[o], .complete, w'⟩ := by
  simp only [drain, h, ht]

theorem drain_of_token {t : Token} (h : w.call servers errand options token = (w', .ok o))
    (ht : o.token = some t) :
    w.drain servers errand (options :: rest) token =
      (w'.drain servers errand rest (some t)).after o := by
  simp only [drain, h, ht]

end

end Site

/-! ## What a call leaves behind -/

namespace Query

/-- A query with nothing to report, as it waits for its next call. -/
def rested (q : Query) : Query :=
  { q with
    pending := #[]
    control := { q.control with callConsumed := .zero, events := [] }
    sequence := q.sequence + 1 }

/-- A query with the settings of a call. -/
def begun (q : Query) (limit : Nat) : Query :=
  { q with control := (q.control.setMemoryLimit limit).beginCall }

/-- A query whose events were collected. -/
def quiet (q : Query) : Query := { q with control := { q.control with events := [] } }

/-- A call that succeeds, from its beginning to its end. -/
inductive Runs (servers : Servers) (rowLimit : Option Nat) (q : Query) (log : List FetchRequest) :
    Bool → Query → List FetchRequest → Prop
  | idle {more : Bool} {r : Query} (h : q.advance rowLimit = (.finished more, r)) :
    Runs servers rowLimit q log more r log
  | fetched {more : Bool} {r s t : Query} {request : FetchRequest} {batch : Batch}
    (hw : q.advance rowLimit = (.waiting request, r)) (hi : r.issue request = .ok s)
    (hb : servers log request = .ok batch)
    (hd : s.quiet.deliver rowLimit batch = (.finished more, t)) :
    Runs servers rowLimit q log more t (request :: log)

end Query

namespace Client
variable (c : Client) (q : Query)

theorem foldl_log (events : List Event) :
    (events.foldl log c).config = c.config ∧ (events.foldl log c).suspended = c.suspended := by
  induction events generalizing c with
  | nil => exact ⟨rfl, rfl⟩
  | cons e rest ih => exact ih (c.log e)

@[simp] theorem config_collect : (c.collect q).1.config = c.config := (c.foldl_log _).1

@[simp] theorem suspended_collect : (c.collect q).1.suspended = c.suspended := (c.foldl_log _).2

theorem find?_keep : (c.keep q).find? q.id = some q := by
  simp [find?, keep]

variable {c q} in
theorem id_of_find? {id : Uuid} (h : c.find? id = some q) : q.id = id :=
  eq_of_beq (List.find?_some (p := fun p : Query => p.id == id) h)

/-- What a caller gets from a call that ends well. -/
def reportOf (more : Bool) (q : Query) : Outcome :=
  { rows := q.pending.toList
    token := if more then some ⟨q.id, q.sequence + 1⟩ else none
    consumed := q.control.callConsumed
    total := q.control.totalConsumed
    memory := if more then q.memory else q.rested.close.memory }

theorem settle_result (more : Bool) : (c.settle more q).2 = .ok (reportOf more q) := by
  cases more <;> rfl

theorem settle_config (more : Bool) : (c.settle more q).1.config = c.config := by
  cases more
  · exact c.config_collect q
  · exact c.config_collect q

theorem settle_find? : (c.settle true q).1.find? q.id = some q.rested :=
  find?_keep _ q.rested

theorem settle_suspended :
    (c.settle true q).1.suspended = q.rested :: (c.remove q.id).suspended := by
  change q.rested :: ((c.collect q).1.suspended.filter _) = _
  rw [suspended_collect]
  rfl

/-- A retryable failure leaves the query where its token finds it. -/
theorem settleError_suspended {e : QueryError} (h : e.isRetryable = true) :
    (c.settleError false q e).1.suspended = q.quiet :: (c.remove q.id).suspended := by
  simp only [settleError, h]
  change q.quiet :: ((c.collect q).1.suspended.filter _) = _
  rw [suspended_collect]
  rfl

theorem settleError_result (fresh : Bool) (e : QueryError) :
    (c.settleError fresh q e).2 = .error e := by
  simp only [settleError]
  split <;> rfl

theorem settleError_config (fresh : Bool) (e : QueryError) :
    (c.settleError fresh q e).1.config = c.config := by
  simp only [settleError]
  split
  · exact c.config_collect q
  · exact c.config_collect q

/-- The query that a call is about: the one that its token names, or else a new one. -/
def opened (errand : Errand) : Option Token → Except QueryError Query
  | some token => c.resume errand.plan token
  | none => do
    Query.ofPlan errand.newId errand.plan (← errand.plan.plan.bind errand.bindings) c.config

variable {c : Client} {q : Query}

/-- A query between its calls is one of the caller's plan, and has no rows to be handed out. -/
structure Idle (errand : Errand) (q : Query) : Prop where
  agrees : q.plan.agrees errand.plan = true
  pending : q.pending = #[]

theorem ofPlan_eq {id : Uuid} {plan : SharedPlan} {externals : List (Option Value)}
    {config : Config} (h : Query.ofPlan id plan externals config = .ok q) :
    plan.plan.validate = .ok () ∧
      ∃ root, Operator.ofStep plan.plan.shards plan.plan.root = .ok root ∧
      q = { id, plan, root, control := { Control.ofConfig config plan.plan.registers with
        externals, compileCost := plan.plan.compileCost } } := by
  unfold Query.ofPlan at h
  cases hv : plan.plan.validate with
  | error e =>
    rw [hv] at h
    cases h
  | ok u =>
    cases ho : Operator.ofStep plan.plan.shards plan.plan.root with
    | error e =>
      rw [hv, ho] at h
      cases h
    | ok root =>
      rw [hv, ho] at h
      cases h
      exact ⟨rfl, root, rfl, rfl⟩

theorem opened_new {errand : Errand} (h : c.opened errand none = .ok q) :
    ∃ externals, errand.plan.plan.bind errand.bindings = .ok externals ∧
      Query.ofPlan errand.newId errand.plan externals c.config = .ok q := by
  unfold opened at h
  cases hb : errand.plan.plan.bind errand.bindings with
  | error e =>
    rw [hb] at h
    cases h
  | ok externals =>
    rw [hb] at h
    exact ⟨externals, rfl, h⟩

theorem idle_new {errand : Errand} (h : c.opened errand none = .ok q) : Idle errand q := by
  obtain ⟨externals, -, ho⟩ := opened_new h
  obtain ⟨-, root, -, rfl⟩ := ofPlan_eq ho
  exact ⟨by simp [SharedPlan.agrees], rfl⟩

/-- The token that a caller gets finds the query that was put to rest. -/
theorem opened_settle {errand : Errand} (h : q.plan.agrees errand.plan = true) :
    (c.settle true q).1.opened errand (some ⟨q.id, q.sequence + 1⟩) = .ok q.rested := by
  have hs : q.rested.sequence = q.sequence + 1 := rfl
  have hp : q.rested.plan.agrees errand.plan = true := h
  simp [opened, resume, c.settle_find? q, hs, hp]

end Client

namespace Site
variable {servers : Servers} {errand : Errand} {options : CallOptions} {token : Option Token}
  {w w' : Site} {o : Outcome}

theorem answer_ok {call : Call} (h : w.answer servers call = (w', .ok o)) :
    ∃ (batch : Batch) (more : Bool) (r : Query), servers w.log call.request = .ok batch ∧
      call.query.deliver call.options.rowLimit batch = (.finished more, r) ∧
      w'.log = call.request :: w.log ∧ w.client.settle more r = (w'.client, .ok o) := by
  have refused (fresh : Bool) (q : Query) (e : QueryError) :
      (w.client.settleError fresh q e).2 ≠ .ok o := by
    rw [Client.settleError_result]
    simp
  simp only [answer, Prod.mk.injEq] at h
  obtain ⟨rfl, ho⟩ := h
  cases hb : servers w.log call.request with
  | error e =>
    rw [hb] at ho
    exact (refused _ _ _ ho).elim
  | ok batch =>
    rw [hb] at ho
    have hc : w.client.answer call (.ofAnswer (.ok batch)) = w.client.conclude call.fresh
        (call.query.deliver call.options.rowLimit batch) := rfl
    generalize hd : call.query.deliver call.options.rowLimit batch = d at hc
    rw [hc] at ho ⊢
    obtain ⟨_ | more | e, r⟩ := d
    · exact (refused _ _ _ ho).elim
    · exact ⟨batch, more, r, rfl, hd, rfl, Prod.ext rfl ho⟩
    · exact (refused _ _ _ ho).elim

/-- A client that has begun a call, and the servers that answer it. -/
theorem run_ok {c : Client} {fresh : Bool} {q : Query} {log : List FetchRequest}
    (h : (match c.run options fresh q with
      | (client, .done result) => (⟨client, log⟩, result)
      | (client, .waiting call) => answer servers ⟨client, log⟩ call) = (w', .ok o)) :
    ∃ (d : Client) (more : Bool) (r : Query),
      (q.begun (options.maxMemory.getD c.config.maxMemory)).Runs servers options.rowLimit log more
        r w'.log ∧ d.config = c.config ∧ d.settle more r = (w'.client, .ok o) := by
  have refused (fresh : Bool) (q : Query) (e : QueryError) :
      (c.settleError fresh q e).2 ≠ .ok o := by
    rw [Client.settleError_result]
    simp
  simp only [Client.run] at h
  change (match c.follow options fresh
    ((q.begun (options.maxMemory.getD c.config.maxMemory)).advance options.rowLimit) with
      | (client, .done result) => (⟨client, log⟩, result)
      | (client, .waiting call) => answer servers ⟨client, log⟩ call) = (w', .ok o) at h
  generalize ha : (q.begun (options.maxMemory.getD c.config.maxMemory)).advance
    options.rowLimit = a at h
  obtain ⟨request | more | e, r⟩ := a
  · simp only [Client.follow] at h
    cases hi : r.issue request with
    | error e =>
      simp only [hi, Prod.mk.injEq] at h
      exact (refused _ _ _ h.2).elim
    | ok s =>
      simp only [hi] at h
      obtain ⟨batch, more, t, hb, hd, hl, hs⟩ := answer_ok h
      refine ⟨_, more, t, ?_, c.config_collect s, hs⟩
      rw [hl]
      exact .fetched ha hi hb hd
  · simp only [Client.follow, Prod.mk.injEq] at h
    obtain ⟨rfl, ho⟩ := h
    exact ⟨c, more, r, .idle ha, rfl, Prod.ext rfl ho⟩
  · simp only [Client.follow, Prod.mk.injEq] at h
    exact (refused _ _ _ h.2).elim

theorem call_ok (h : w.call servers errand options token = (w', .ok o)) :
    options.rowLimit ≠ some 0 ∧ ∃ (q : Query) (c : Client) (more : Bool) (r : Query),
      w.client.opened errand token = .ok q ∧
      (q.begun (options.maxMemory.getD w.client.config.maxMemory)).Runs servers options.rowLimit
        w.log more r w'.log ∧ c.config = w.client.config ∧
      c.settle more r = (w'.client, .ok o) := by
  simp only [call, Client.execute] at h
  by_cases hz : options.rowLimit = some 0
  · simp [hz] at h
  simp only [hz, ↓reduceIte] at h
  refine ⟨hz, ?_⟩
  cases token with
  | some token =>
    cases hr : w.client.resume errand.plan token with
    | error e =>
      have he : Client.resume { w.client with metrics := w.client.metrics.countCall } errand.plan
          token = .error e := hr
      simp [he] at h
    | ok q =>
      have he : Client.resume { w.client with metrics := w.client.metrics.countCall } errand.plan
          token = .ok q := hr
      simp only [he] at h
      obtain ⟨c, more, r, hq, hc, hs⟩ := run_ok h
      exact ⟨q, c, more, r, hr, hq, hc, hs⟩
  | none =>
    simp only at h
    cases hr : w.client.opened errand none with
    | error e =>
      simp only [Client.opened] at hr
      simp [hr] at h
    | ok q =>
      simp only [Client.opened] at hr
      simp only [hr] at h
      obtain ⟨c, more, r, hq, hc, hs⟩ := run_ok h
      exact ⟨q, c, more, r, rfl, hq, hc, hs⟩

end Site
end ShardQuery
