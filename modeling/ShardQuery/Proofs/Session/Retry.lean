import ShardQuery.Proofs.Session.Flow

/-!
Calls that are repeated after their fetch has failed for a passing reason. What was pulled before
the failure is kept, and the query waits for the same batch again, so nothing but the failures
themselves shows that there were any.
-/

namespace ShardQuery

/-- What can keep a batch from a call so that the call may be repeated. -/
inductive Mishap where
  | throttled (reason : String)
  | protocolVersion (reason : String)
  | cancelled
  | timedOut (milliseconds : Nat)

namespace Mishap

def error : Mishap → QueryError
  | throttled reason => .fetch (.retryable reason)
  | protocolVersion reason => .fetch (.protocolVersion reason)
  | cancelled => .cancelled
  | timedOut milliseconds => .timeout milliseconds

/-- Ends a call that waits. -/
def strike (c : Client) (call : Call) : Mishap → Client × Except QueryError Outcome
  | throttled reason => c.answer call (.failed (.retryable reason))
  | protocolVersion reason => c.answer call (.failed (.protocolVersion reason))
  | cancelled => c.answer call .cancelled
  | timedOut milliseconds => c.timeOut call milliseconds

end Mishap

/-- An attempt that failed. -/
structure Failure where
  request : FetchRequest
  answer : Except QueryError Outcome
  /-- What the token of the call finds afterwards. -/
  found : Except QueryError Query

/-- The attempts at one call. -/
structure Tries where
  failures : List Failure
  /-- The request of the last attempt, if it made one. -/
  request : Option FetchRequest

/-- All attempts but the last failed by the mishaps they met with, sent the request that the last
one sent, and left a query for their token. Or there was one attempt only, which sent nothing. -/
def Tries.Repeats (t : Tries) (mishaps : List Mishap) : Prop :=
  t = ⟨[], none⟩ ∨ ∃ request query,
    t = ⟨mishaps.map fun m => ⟨request, .error m.error, .ok query⟩, some request⟩

namespace Site

/-- One call that meets with mishaps and is repeated after each, with the same token and options. A
call that needs no batch has no mishap. -/
def insist (servers : Servers) (errand : Errand) (options : CallOptions) (token : Option Token) :
    List Mishap → Site → Tries × Site × Except QueryError Outcome
  | mishaps, w =>
    match w.client.execute errand.newId errand.plan errand.bindings options token with
    | (client, .done result) => (⟨[], none⟩, { w with client }, result)
    | (client, .waiting call) =>
      match mishaps with
      | [] => (⟨[], some call.request⟩, answer servers { w with client } call)
      | mishap :: rest =>
        let (client, result) := mishap.strike client call
        let failure : Failure := ⟨call.request, result, client.opened errand token⟩
        let (tries, last) := insist servers errand options token rest { w with client }
        ({ tries with failures := failure :: tries.failures }, last)

/-- Calls until there is no token left to go on with or a call fails for good. -/
def drainInsisting (servers : Servers) (errand : Errand) :
    List (CallOptions × List Mishap) → Option Token → Site → List Tries × Drained
  | [], token, w => ([], ⟨[], .suspended token, w⟩)
  | (options, mishaps) :: rest, token, w =>
    match w.insist servers errand options token mishaps with
    | (tries, w, .error e) => ([tries], ⟨[], .failed e, w⟩)
    | (tries, w, .ok outcome) =>
      match outcome.token with
      | none => ([tries], ⟨[outcome], .complete, w⟩)
      | some token =>
        let (others, drained) := drainInsisting servers errand rest (some token) w
        (tries :: others, drained.after outcome)

end Site

/-! ## Metrics and events aside -/

namespace Client

/-- Clients that differ in what they counted and logged only. -/
structure Matches (c d : Client) : Prop where
  config : c.config = d.config
  suspended : c.suspended = d.suspended

namespace Matches
variable {c d : Client}

theorem refl (c : Client) : Matches c c := ⟨rfl, rfl⟩

theorem collect (h : Matches c d) (q : Query) : Matches (c.collect q).1 (d.collect q).1 := by
  constructor
  · rw [config_collect, config_collect, h.config]
  · rw [suspended_collect, suspended_collect, h.suspended]

theorem log (h : Matches c d) (e : Event) : Matches (c.log e) (d.log e) := ⟨h.config, h.suspended⟩

theorem remove (h : Matches c d) (id : Uuid) : Matches (c.remove id) (d.remove id) :=
  ⟨h.config, congrArg (List.filter _) h.suspended⟩

theorem keep (h : Matches c d) (q : Query) : Matches (c.keep q) (d.keep q) :=
  ⟨h.config, congrArg (q :: ·) (h.remove q.id).suspended⟩

theorem settle (h : Matches c d) (more : Bool) (q : Query) :
    Matches (c.settle more q).1 (d.settle more q).1 ∧
      (c.settle more q).2 = (d.settle more q).2 := by
  refine ⟨?_, by rw [settle_result, settle_result]⟩
  cases more with
  | false => exact ⟨(h.collect q).config, (h.collect q).suspended⟩
  | true =>
    constructor
    · rw [settle_config, settle_config, h.config]
    · rw [settle_suspended, settle_suspended, (h.remove q.id).suspended]

theorem settleError (h : Matches c d) (fresh : Bool) (q : Query) (e : QueryError) :
    Matches (c.settleError fresh q e).1 (d.settleError fresh q e).1 ∧
      (c.settleError fresh q e).2 = (d.settleError fresh q e).2 := by
  refine ⟨?_, by rw [settleError_result, settleError_result]⟩
  have hq := (h.collect q).log (.queryFailed e)
  simp only [Client.settleError]
  split
  · exact hq
  · exact hq.keep _

theorem follow (h : Matches c d) (options : CallOptions) (fresh : Bool) (p : Progress × Query) :
    Matches (c.follow options fresh p).1 (d.follow options fresh p).1 ∧
      (c.follow options fresh p).2 = (d.follow options fresh p).2 := by
  obtain ⟨request | more | e, q⟩ := p
  · simp only [Client.follow]
    cases q.issue request with
    | error e =>
      exact ⟨(h.settleError fresh q e).1, congrArg CallState.done (h.settleError fresh q e).2⟩
    | ok q => exact ⟨h.collect q, rfl⟩
  · exact ⟨(h.settle more q).1, congrArg CallState.done (h.settle more q).2⟩
  · exact ⟨(h.settleError fresh q e).1, congrArg CallState.done (h.settleError fresh q e).2⟩

theorem run (h : Matches c d) (options : CallOptions) (fresh : Bool) (q : Query) :
    Matches (c.run options fresh q).1 (d.run options fresh q).1 ∧
      (c.run options fresh q).2 = (d.run options fresh q).2 := by
  simp only [Client.run, h.config]
  exact h.follow options fresh _

theorem resume (h : Matches c d) (plan : SharedPlan) (token : Token) :
    c.resume plan token = d.resume plan token := by
  simp only [Client.resume, find?, h.suspended]

theorem execute (h : Matches c d) (newId : Uuid) (plan : SharedPlan) (bindings : Bindings)
    (options : CallOptions) (token : Option Token) :
    Matches (c.execute newId plan bindings options token).1
        (d.execute newId plan bindings options token).1 ∧
      (c.execute newId plan bindings options token).2 =
        (d.execute newId plan bindings options token).2 := by
  obtain ⟨config, suspended, metrics, events⟩ := c
  obtain ⟨_, _, metrics', events'⟩ := d
  obtain ⟨rfl, rfl⟩ := h
  have hc : Matches ⟨config, suspended, metrics.countCall, events⟩
      ⟨config, suspended, metrics'.countCall, events'⟩ := ⟨rfl, rfl⟩
  simp only [Client.execute]
  split
  · exact ⟨hc, rfl⟩
  · cases token with
    | some token =>
      simp only [hc.resume plan token]
      split
      · exact ⟨hc, rfl⟩
      · exact (hc.remove _).run options false _
    | none =>
      simp only
      split
      · exact ⟨hc, rfl⟩
      · exact (hc.log _).run options true _

theorem answer (h : Matches c d) (call : Call) (reply : Reply) :
    Matches (c.answer call reply).1 (d.answer call reply).1 ∧
      (c.answer call reply).2 = (d.answer call reply).2 := by
  cases reply with
  | batch b =>
    simp only [Client.answer]
    obtain ⟨request | more | e, q⟩ := call.query.deliver call.options.rowLimit b
    · exact h.settleError ..
    · exact h.settle ..
    · exact h.settleError ..
  | failed e => exact h.settleError ..
  | cancelled => exact h.settleError ..

end Matches

variable {c d : Client} {options : CallOptions} {token : Token} {call : Call} {newId : Uuid}
  {plan : SharedPlan} {bindings : Bindings}

/-- How a call of a suspended query has come to wait. -/
structure Waits (c : Client) (plan : SharedPlan) (options : CallOptions) (token : Token)
    (call : Call) (q r : Query) : Prop where
  rowLimit : options.rowLimit ≠ some 0
  resume : c.resume plan token = .ok q
  advance : (q.begun (options.maxMemory.getD c.config.maxMemory)).advance options.rowLimit =
    (.waiting call.request, r)
  issue : ∃ s, r.issue call.request = .ok s ∧ call = ⟨s.quiet, options, false, call.request⟩

theorem execute_waits (newId : Uuid) (bindings : Bindings) {q r : Query}
    (h : Waits c plan options token call q r) :
    (c.execute newId plan bindings options (some token)).2 = .waiting call ∧
      (c.execute newId plan bindings options (some token)).1.config = c.config ∧
      (c.execute newId plan bindings options (some token)).1.suspended =
        (c.remove q.id).suspended := by
  obtain ⟨s, hi, hcall⟩ := h.issue
  have hr : Client.resume { c with metrics := c.metrics.countCall } plan token = .ok q := h.resume
  have ha : Query.advance options.rowLimit { q with control :=
      (q.control.setMemoryLimit (options.maxMemory.getD c.config.maxMemory)).beginCall } =
        (.waiting call.request, r) := h.advance
  simp only [execute, h.rowLimit, ↓reduceIte, hr, run, Lease.runtime_of]
  have hconfig : (remove { c with metrics := c.metrics.countCall } q.id).config = c.config := rfl
  simp only [hconfig, ha, follow, hi, config_collect, suspended_collect]
  exact ⟨congrArg _ hcall.symm, trivial, rfl⟩

theorem waits_of_execute
    (h : c.execute newId plan bindings options (some token) = (d, .waiting call)) :
    ∃ q r, Waits c plan options token call q r := by
  simp only [execute] at h
  by_cases hz : options.rowLimit = some 0
  · simp [hz] at h
  simp only [hz, ↓reduceIte] at h
  cases hr : c.resume plan token with
  | error e =>
    have he : Client.resume { c with metrics := c.metrics.countCall } plan token = .error e := hr
    simp [he] at h
  | ok q =>
    have he : Client.resume { c with metrics := c.metrics.countCall } plan token = .ok q := hr
    simp only [he, run, Lease.runtime_of] at h
    change follow _ options false
      ((q.begun (options.maxMemory.getD c.config.maxMemory)).advance options.rowLimit) = _ at h
    rcases ha : (q.begun (options.maxMemory.getD c.config.maxMemory)).advance options.rowLimit
      with ⟨request | more | e, r⟩
    · rw [ha] at h
      simp only [follow] at h
      cases hi : r.issue request with
      | error e => simp [hi] at h
      | ok s =>
        simp only [hi, Prod.mk.injEq, CallState.waiting.injEq] at h
        obtain ⟨-, rfl⟩ := h
        exact ⟨q, r, hz, hr, ha, s, hi, rfl⟩
    · rw [ha] at h
      simp [follow] at h
    · rw [ha] at h
      simp [follow] at h

theorem resume_eq_ok {q : Query} : c.resume plan token = .ok q ↔
    c.find? token.query = some q ∧ q.sequence = token.sequence ∧ q.plan.agrees plan = true := by
  unfold resume
  cases c.find? token.query with
  | none => simp
  | some p =>
    simp only [Option.some.injEq, Lease.runtime_of]
    split
    · rename_i h
      simp only [bne_iff_ne, ne_eq] at h
      simp only [reduceCtorEq, false_iff, not_and]
      rintro rfl hs
      exact (h hs).elim
    · rename_i h
      split
      · rename_i ha
        simp only [Bool.not_eq_true', reduceCtorEq, false_iff, not_and] at ha ⊢
        rintro rfl - ht
        rw [ha] at ht
        cases ht
      · rename_i ha
        simp only [bne_iff_ne, ne_eq, Decidable.not_not] at h
        simp only [Bool.not_eq_true', Bool.not_eq_false] at ha
        simp only [Except.ok.injEq]
        exact ⟨fun hp => ⟨hp, hp ▸ h, hp ▸ ha⟩, fun hp => hp.1⟩

/-- A mishap puts the query of a call to rest as it waited. -/
theorem strike_eq (d : Client) (call : Call) (m : Mishap) (hf : call.fresh = false)
    (hq : call.query.quiet = call.query) :
    ∃ q : Query, m.strike d call = d.settleError false q m.error ∧ q.quiet = call.query ∧
      m.error.isRetryable = true := by
  cases m with
  | throttled reason =>
    exact ⟨call.query.fetchFailed (.fetch (.retryable reason)), by rw [← hf]; rfl, hq, rfl⟩
  | protocolVersion reason =>
    exact ⟨call.query.fetchFailed (.fetch (.protocolVersion reason)), by rw [← hf]; rfl, hq, rfl⟩
  | cancelled =>
    let control := call.query.control.emit .fetchCancelled
    exact ⟨{ call.query with control }.fetchFailed .cancelled, by rw [← hf]; rfl, hq, rfl⟩
  | timedOut n => exact ⟨call.query, by rw [← hf]; rfl, hq, rfl⟩

theorem strike_suspended (d : Client) (call : Call) (m : Mishap) (hf : call.fresh = false)
    (hq : call.query.quiet = call.query) :
    (m.strike d call).2 = .error m.error ∧ (m.strike d call).1.config = d.config ∧
      (m.strike d call).1.suspended = call.query :: (d.remove call.query.id).suspended := by
  obtain ⟨q, he, hc, hr⟩ := strike_eq d call m hf hq
  rw [he, ← hc]
  exact ⟨settleError_result .., settleError_config .., settleError_suspended d q hr⟩

/-- A query that waits in a call begins its next call where it was. -/
theorem begun_issued {r s : Query} {request : FetchRequest} (hf : r.control.frame.Fresh)
    (hi : r.issue request = .ok s) : s.quiet.begun r.control.ledger.limit = r.quiet := by
  rw [Query.issue_eq hf] at hi
  cases hi
  obtain ⟨h1, h2⟩ := hf
  obtain ⟨id, plan, root, control, pending, sequence⟩ := r
  obtain ⟨_, _, _, _, fetchDone, needsContinuation, _, _, _, _⟩ := control
  obtain rfl : fetchDone = false := h1
  obtain rfl : needsContinuation = false := h2
  rfl

/-- After a mishap the same token, with the same options, leads to the same wait. -/
theorem waits_again {q r : Query} (h : Waits c plan options token call q r) (m : Mishap)
    (hc : d.config = c.config) :
    call.query.id = q.id ∧ (m.strike d call).1.resume plan token = .ok call.query ∧
      Waits (m.strike d call).1 plan options token call call.query r.quiet := by
  obtain ⟨hz, hres, ha, s, hi, hcall⟩ := h
  obtain ⟨hfound, hseq, hplan⟩ := resume_eq_ok.1 hres
  obtain ⟨hfresh, hagain⟩ := Query.advance_again rfl ha
  have hid : r.identity = _ := (congrArg (·.2.identity) ha).symm.trans (Query.advance_identity ..)
  have hquery : call.query = s.quiet := by rw [hcall]
  have hsid : s.quiet.identity = r.identity := by
    rw [Query.issue_eq hfresh] at hi
    cases hi
    rfl
  have hbegun := begun_issued hfresh hi
  have hlimit : r.control.ledger.limit = options.maxMemory.getD c.config.maxMemory :=
    congrArg (·.2.2.2.2.2) hid
  obtain ⟨-, hconfig, hsusp⟩ := strike_suspended d call m (by rw [hcall]) (by rw [hquery]; rfl)
  have hqid : call.query.id = q.id := by
    rw [hquery]
    exact (congrArg (·.1) hsid).trans (congrArg (·.1) hid)
  have htoken : q.id = token.query := id_of_find? hfound
  have hresume : (m.strike d call).1.resume plan token = .ok call.query := by
    refine resume_eq_ok.2 ⟨?_, ?_, ?_⟩
    · rw [find?, hsusp]
      simp [hqid, htoken]
    · rw [hquery, ← hseq]
      exact (congrArg (·.2.2.1) hsid).trans (congrArg (·.2.2.1) hid)
    · rw [hquery]
      have : s.quiet.plan = q.plan :=
        (congrArg (·.2.1) hsid).trans (congrArg (·.2.1) hid)
      rw [this]
      exact hplan
  refine ⟨hqid, hresume, hz, hresume, ?_, ?_⟩
  · rw [hconfig, hc, ← hlimit, hquery, hbegun]
    exact hagain
  · refine ⟨_, Query.issue_eq hfresh, ?_⟩
    rw [Query.issue_eq hfresh] at hi
    cases hi
    exact hcall

end Client

namespace Site
variable {servers : Servers} {errand : Errand} {options : CallOptions} {token : Token}

/-- Sites that differ in what their clients counted and logged only. -/
structure Matches (v w : Site) : Prop where
  client : v.client.Matches w.client
  log : v.log = w.log

theorem Matches.answer {v w : Site} (h : Matches v w) (call : Call) :
    Matches (v.answer servers call).1 (w.answer servers call).1 ∧
      (v.answer servers call).2 = (w.answer servers call).2 := by
  simp only [Site.answer, h.log]
  have := h.client.answer call (.ofAnswer (servers w.log call.request))
  exact ⟨⟨this.1, rfl⟩, this.2⟩

theorem Matches.call (servers : Servers) (errand : Errand) {v w : Site} (h : Matches v w)
    (options : CallOptions) (token : Option Token) :
    Matches (v.call servers errand options token).1 (w.call servers errand options token).1 ∧
      (v.call servers errand options token).2 = (w.call servers errand options token).2 := by
  have he := h.client.execute errand.newId errand.plan errand.bindings options token
  simp only [Site.call]
  generalize v.client.execute errand.newId errand.plan errand.bindings options token = x at he
  generalize w.client.execute errand.newId errand.plan errand.bindings options token = y at he
  obtain ⟨c, s⟩ := x
  obtain ⟨d, t⟩ := y
  obtain ⟨hcd, rfl⟩ := he
  cases s with
  | done result => exact ⟨⟨hcd, h.log⟩, rfl⟩
  | waiting call =>
    exact Matches.answer (v := { v with client := c }) (w := { w with client := d })
      ⟨hcd, h.log⟩ call

/-- A call that waits comes to the same end however often it is struck. -/
theorem insist_of_waits (servers : Servers) (log : List FetchRequest) {c : Client} (d : Client)
    {call : Call} {q r : Query} (h : Client.Waits c errand.plan options token call q r)
    (mishaps : List Mishap)
    (hc : d.config = c.config) (hs : d.suspended = (c.remove q.id).suspended) :
    let plain := answer servers ⟨d, log⟩ call
    let tried := insist servers errand options (some token) mishaps ⟨c, log⟩
    tried.1 = ⟨mishaps.map fun m => ⟨call.request, .error m.error, .ok call.query⟩,
      some call.request⟩ ∧ tried.2.1.Matches plain.1 ∧ tried.2.2 = plain.2 := by
  induction mishaps generalizing c q r with
  | nil =>
    obtain ⟨hw, hcc, hcs⟩ := Client.execute_waits errand.newId errand.bindings h
    rw [insist]
    generalize c.execute errand.newId errand.plan errand.bindings options (some token) = x
      at hw hcc hcs
    obtain ⟨c', state⟩ := x
    obtain rfl : state = .waiting call := hw
    exact ⟨rfl, Matches.answer (v := ⟨c', log⟩) (w := ⟨d, log⟩)
      ⟨⟨hcc.trans hc.symm, hcs.trans hs.symm⟩, rfl⟩ call⟩
  | cons m rest ih =>
    obtain ⟨hw, hcc, hcs⟩ := Client.execute_waits errand.newId errand.bindings h
    rw [insist]
    generalize c.execute errand.newId errand.plan errand.bindings options (some token) = x
      at hw hcc hcs
    obtain ⟨c', state⟩ := x
    obtain rfl : state = .waiting call := hw
    obtain ⟨hqid, hresume, hagain⟩ := Client.waits_again h m (d := c') hcc
    obtain ⟨s, -, hcall⟩ := h.issue
    obtain ⟨hm, hmc, hms⟩ := Client.strike_suspended c' call m (by rw [hcall]) (by rw [hcall]; rfl)
    have hlog := ih hagain (hc.trans (hcc.symm.trans hmc.symm)) (by
      simp only [Client.remove, hms, hqid] at hcs ⊢
      rw [hs, hcs]
      simp [Client.remove, hqid])
    simp only [Client.opened, hresume, hm]
    obtain ⟨h1, h2⟩ := hlog
    refine ⟨?_, h2⟩
    rw [h1]
    rfl

/-- What the repetitions of a call show: the call itself, and the requests of failed attempts. -/
structure Repeats (plain : Site × Except QueryError Outcome)
    (tried : Tries × Site × Except QueryError Outcome) (log : List FetchRequest)
    (mishaps : List Mishap) : Prop where
  site : tried.2.1.Matches plain.1
  result : tried.2.2 = plain.2
  log : plain.1.log = tried.1.request.toList ++ log
  tries : tried.1.Repeats mishaps

theorem insist_nil {v w : Site} (h : v.Matches w) (token : Option Token) :
    Repeats (w.call servers errand options token)
      (v.insist servers errand options token []) w.log [] := by
  have he := h.client.execute errand.newId errand.plan errand.bindings options token
  have hc := h.call servers errand options token
  rw [insist]
  simp only [call] at hc ⊢
  generalize v.client.execute errand.newId errand.plan errand.bindings options token = x at he hc
  generalize w.client.execute errand.newId errand.plan errand.bindings options token = y at he hc
  obtain ⟨c, s⟩ := x
  obtain ⟨d, t⟩ := y
  obtain ⟨hcd, rfl⟩ := he
  cases s with
  | done result => exact ⟨hc.1, hc.2, rfl, .inl rfl⟩
  | waiting call => exact ⟨hc.1, hc.2, rfl, .inr ⟨call.request, call.query, rfl⟩⟩

theorem insist_resumed {v w : Site} (h : v.Matches w) (token : Token) (mishaps : List Mishap) :
    Repeats (w.call servers errand options (some token))
      (v.insist servers errand options (some token) mishaps) w.log mishaps := by
  have he := h.client.execute errand.newId errand.plan errand.bindings options (some token)
  rcases hv : v.client.execute errand.newId errand.plan errand.bindings options (some token)
    with ⟨c, s⟩
  rcases hw : w.client.execute errand.newId errand.plan errand.bindings options (some token)
    with ⟨d, t⟩
  rw [hv, hw] at he
  obtain ⟨hcd, rfl⟩ := he
  cases s with
  | done result =>
    rw [insist]
    simp only [hv, call, hw]
    exact ⟨⟨hcd, h.log⟩, rfl, rfl, .inl rfl⟩
  | waiting call =>
    obtain ⟨q, r, hq⟩ := Client.waits_of_execute hv
    obtain ⟨-, hcc, hcs⟩ := Client.execute_waits errand.newId errand.bindings hq
    rw [hv] at hcc hcs
    obtain ⟨h1, h2, h3⟩ := insist_of_waits servers w.log d hq mishaps
      (hcd.config.symm.trans hcc) (hcd.suspended.symm.trans hcs)
    rw [← h.log] at h1 h2 h3
    have hplain : w.call servers errand options (some token) = answer servers ⟨d, v.log⟩ call := by
      simp only [Site.call, hw, h.log]
    rw [hplain]
    refine ⟨h2, h3, ?_, .inr ⟨call.request, call.query, h1⟩⟩
    rw [show (v.insist servers errand options (some token) mishaps).1 = _ from h1, ← h.log]
    rfl

/-- What a drain with mishaps has in common with one that meets with none. -/
structure Resembles (plain : Drained) (tried : List Tries × Drained) (log : List FetchRequest)
    (mishaps : List (List Mishap)) : Prop where
  /-- The calls come to the same: the same rows, tokens, capacities and bytes held. -/
  outcomes : tried.2.outcomes = plain.outcomes
  standing : tried.2.standing = plain.standing
  /-- What the last attempts sent is what is sent without mishaps. -/
  requests : plain.site.log = (tried.1.filterMap (·.request)).reverse ++ log
  answered : tried.2.site.log = plain.site.log
  repeats : ∀ p ∈ tried.1.zip mishaps, p.1.Repeats p.2

theorem Resembles.cons {v w : Site} {token : Option Token} {mishaps : List Mishap}
    {rest : List (CallOptions × List Mishap)}
    (h : Repeats (w.call servers errand options token)
      (v.insist servers errand options token mishaps) w.log mishaps)
    (hrest : ∀ {v w : Site}, v.Matches w → ∀ token,
      Resembles (w.drain servers errand (rest.map (·.1)) (some token))
        (v.drainInsisting servers errand rest (some token)) w.log (rest.map (·.2))) :
    Resembles (w.drain servers errand (options :: rest.map (·.1)) token)
      (v.drainInsisting servers errand ((options, mishaps) :: rest) token) w.log
      (mishaps :: rest.map (·.2)) := by
  rcases hc : w.call servers errand options token with ⟨w', e | o⟩
  all_goals
    rcases ht : v.insist servers errand options token mishaps with ⟨tries, v', result⟩
    rw [hc, ht] at h
    obtain ⟨hm, rfl, hl, hr⟩ := h
  · rw [drain_of_error hc, drainInsisting, ht]
    refine ⟨rfl, rfl, ?_, hm.log, ?_⟩
    · cases hq : tries.request <;> simpa [hq] using hl
    · simpa using hr
  · cases hot : o.token with
    | none =>
      rw [drain_of_last hc hot, drainInsisting, ht]
      simp only [hot]
      refine ⟨rfl, rfl, ?_, hm.log, ?_⟩
      · cases hq : tries.request <;> simpa [hq] using hl
      · simpa using hr
    | some t =>
      rw [drain_of_token hc hot, drainInsisting, ht]
      simp only [hot]
      have hd := hrest hm t
      refine ⟨congrArg (o :: ·) hd.outcomes, hd.standing, ?_, hd.answered, ?_⟩
      · change (w'.drain servers errand _ (some t)).site.log = _
        rw [hd.requests]
        simp only at hl
        cases hq : tries.request <;> simp [hq, hl]
      · rintro p hp
        rcases List.mem_cons.1 hp with rfl | hp
        · exact hr
        · exact hd.repeats p hp

theorem drainInsisting_resumed {v w : Site} (h : v.Matches w) (token : Token)
    (calls : List (CallOptions × List Mishap)) :
    Resembles (w.drain servers errand (calls.map (·.1)) (some token))
      (v.drainInsisting servers errand calls (some token)) w.log (calls.map (·.2)) := by
  induction calls generalizing v w token with
  | nil => exact ⟨rfl, rfl, rfl, h.log, by simp [drainInsisting]⟩
  | cons first rest ih => exact .cons (insist_resumed h token first.2) ih

/-- Failures for a passing reason leave no trace. Let any number of attempts at any calls but the
first meet with mishaps, each time repeated with the same token and options: every failure leaves
the query to its token, the same request is sent again, and the calls come to what they come to
without mishaps. -/
theorem drainInsisting_resembles (servers : Servers) (errand : Errand) (w : Site)
    (first : CallOptions) (rest : List (CallOptions × List Mishap)) :
    Resembles (w.drain servers errand (first :: rest.map (·.1)) none)
      (w.drainInsisting servers errand ((first, []) :: rest) none) w.log
      ([] :: rest.map (·.2)) :=
  .cons (insist_nil ⟨.refl _, rfl⟩ none) fun h token => drainInsisting_resumed h token rest

end Site
end ShardQuery
