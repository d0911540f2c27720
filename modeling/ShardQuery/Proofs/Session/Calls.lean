import ShardQuery.Proofs.Plan.Rejection
import ShardQuery.Proofs.Session.History

/-!
A call asks for one batch at most. Once it has its batch its operators never ask again, so a call
that is not the last of its query has either returned as many rows as its caller wanted or got one
batch.
-/

namespace ShardQuery

namespace Operator

/-- With the fetch of the call spent, pulling never ends in a request. -/
theorem pull_spent (op : Operator) {c : Control} (hc : c.frame.Spent) :
    (op.pull c).signal.asks = false ∧
      ((op.pull c).signal = .row → (op.pull c).control.frame.Spent) := by
  obtain ⟨p, d, -, hd, hp, -⟩ := op.pull_leads (fun _ _ => .ok { rows := [] }) [] [] hc.2
  have h1 : d.fetchDone = true := (congrArg (·.1) hd).trans hc.1
  have h2 : d.needsContinuation = false := (congrArg (·.2.1) hd).trans hc.2
  rw [hp]
  rcases p.step_follows h2 with ⟨-, ha, hr⟩ | ⟨-, hs, -⟩
  · exact ⟨hr h1, fun _ => ⟨(congrArg (·.1) ha).trans h1, (congrArg (·.2.1) ha).trans h2⟩⟩
  · simp [hs, Signal.asks]

end Operator

namespace Query
variable {q r : Query} {rowLimit : Option Nat} {batch : Batch} {e : QueryError}

theorem advance_spent (hc : q.control.frame.Spent) (request : FetchRequest) :
    (q.advance rowLimit).1 ≠ .waiting request := by
  induction h : q.root.work using Nat.strongRecOn generalizing q with
  | ind n ih =>
    obtain ⟨ha, hs⟩ := q.root.pull_spent hc
    have hw := q.root.pull_work q.control
    rw [advance_eq]
    split
    · simp
    · simp only
      split
      · rename_i hr
        exact ih _ (h ▸ hw.2 hr) (hs hr) rfl
      · rename_i hr
        rw [hr] at ha
        cases ha
      · simp
      · simp
      · simp

/-- What a call has spent before a batch comes is spent afterwards. -/
theorem received_spent (hc : q.control.frame.Spent) (batch : Batch) :
    (q.received batch).control.frame.Spent := by
  have h : (q.received batch).control.frame = _ :=
    (q.root.deliver_framed batch).frame_control (q.control.recordBatch batch)
  exact ⟨(congrArg (·.fetchDone) h).trans hc.1, (congrArg (·.needsContinuation) h).trans hc.2⟩

theorem deliver_eq (q : Query) (rowLimit : Option Nat) (batch : Batch) :
    q.deliver rowLimit batch =
      match (q.root.deliver (q.control.recordBatch batch) batch).1 with
      | some e => (.failed e, q.received batch)
      | none => (q.received batch).advance rowLimit := rfl

theorem deliver_spent (hc : q.control.frame.Spent) (request : FetchRequest) :
    (q.deliver rowLimit batch).1 ≠ .waiting request := by
  rw [deliver_eq]
  split
  · simp
  · exact advance_spent (received_spent hc batch) request

theorem advance_failed (h : q.advance rowLimit = (.failed e, r)) : Fault e := by
  induction hn : q.root.work using Nat.strongRecOn generalizing q with
  | ind n ih =>
    have hw := q.root.pull_work q.control
    have hf := q.root.pull_faulty q.control
    rw [advance_eq] at h
    split at h
    · cases h
    · simp only at h
      split at h
      · rename_i hr
        exact ih _ (hn ▸ hw.2 hr) h rfl
      · cases h
      · rename_i e' he
        cases h
        exact hf e (by simp [Fallible.failure, he])
      · cases h
      · cases h

theorem deliver_failed (h : q.deliver rowLimit batch = (.failed e, r)) : Fault e := by
  have hf := q.root.deliver_faulty (q.control.recordBatch batch) batch
  rw [deliver_eq] at h
  split at h
  · rename_i he
    cases h
    exact hf e he
  · exact advance_failed h

theorem issue_spent {s : Query} {request : FetchRequest} (hf : r.control.frame.Fresh)
    (hi : r.issue request = .ok s) : s.quiet.control.frame.Spent := by
  rw [issue_eq hf] at hi
  cases hi
  exact ⟨rfl, hf.2⟩

end Query

/-- How many batches a reply brings. -/
def Reply.batches : Reply → Nat
  | .batch _ => 1
  | .failed _ | .cancelled => 0

namespace Client
variable {c d : Client} {errand : Errand} {options : CallOptions} {token : Option Token} {q : Query}

theorem entered_config (c : Client) (errand : Errand) (token : Option Token) (q : Query) :
    (c.entered errand token q).config = c.config := by
  cases token <;> rfl

/-- A token is turned down, or a plan or its bindings are. None of this is about a fetch. -/
theorem opened_error {e : QueryError} (h : c.opened errand token = .error e) :
    Setback e ∨ ∃ reason, e = .invalidContinuation reason := by
  cases token with
  | some token =>
    change c.resume errand.plan token = .error e at h
    unfold resume at h
    split at h
    · cases h
      exact .inr ⟨_, rfl⟩
    · simp only [Lease.runtime_of] at h
      split at h
      · cases h
        exact .inr ⟨_, rfl⟩
      · split at h
        · cases h
          exact .inr ⟨_, rfl⟩
        · cases h
  | none =>
    have hf : Raises Setback (c.opened errand none) :=
      .bind (errand.plan.plan.bind_setback errand.bindings) fun _ =>
        .bind errand.plan.plan.validate_setback fun _ =>
          .bind (Operator.ofStep_setback _ _) fun _ => .none rfl
    rw [h] at hf
    exact .inl (hf e rfl)

/-- What is so of the result of a call that got so many batches. -/
structure Regular (options : CallOptions) (batches : Nat) (result : Except QueryError Outcome) :
    Prop where
  ne_secondFetch : result ≠ .error Control.secondFetch
  /-- A call that does not end its query has not been idle. -/
  busy : ∀ o, result = .ok o → o.token.isSome →
    (∃ n, options.rowLimit = some n ∧ n ≤ o.rows.length) ∨ batches = 1

theorem Regular.of_fault {e : QueryError} {batches : Nat} (h : Fault e) :
    Regular options batches (.error e) := by
  refine ⟨fun he => ?_, by simp⟩
  cases he
  exact h.ne_secondFetch rfl

theorem Regular.of_ne {e : QueryError} {batches : Nat} (h : e ≠ Control.secondFetch) :
    Regular options batches (.error e) :=
  ⟨fun he => h (Except.error.inj he), by simp⟩

/-- How a call goes that needs no batch, or how it comes to wait for one. -/
inductive Commences (options : CallOptions) : CallState → Prop
  | done {result : Except QueryError Outcome} (h : Regular options 0 result) :
    Commences options (.done result)
  | waiting {call : Call} (h : call.query.control.frame.Spent) (ho : call.options = options) :
    Commences options (.waiting call)

theorem follow_commences (c : Client) (options : CallOptions) (fresh : Bool)
    (hc : q.control.frame.Fresh) :
    Commences options (c.follow options fresh (q.advance options.rowLimit)).2 := by
  rcases ha : q.advance options.rowLimit with ⟨request | more | e, r⟩
  · obtain ⟨hf, -⟩ := Query.advance_again hc.2 ha
    rw [follow, Query.issue_eq hf]
    exact .waiting (Query.issue_spent hf (Query.issue_eq hf)) rfl
  · simp only [follow, settle_result]
    refine .done ⟨by simp, fun o ho ht => .inl ?_⟩
    cases ho
    cases more with
    | false => cases ht
    | true =>
      have hl := Query.advance_more hc ha
      obtain ⟨n, hn, hle⟩ := (Option.any_eq_true _ _).1 hl
      exact ⟨n, hn, by simpa [reportOf] using hle⟩
  · simp only [follow, settleError_result]
    exact .done (.of_fault (Query.advance_failed ha))

theorem execute_commences (c : Client) (newId : Uuid) (plan : SharedPlan) (bindings : Bindings)
    (options : CallOptions) (token : Option Token) :
    Commences options (c.execute newId plan bindings options token).2 := by
  rw [c.execute_eq ⟨newId, plan, bindings⟩]
  split
  · exact .done (.of_fault (.invalidArgument _))
  · split
    · rename_i e he
      refine .done ?_
      rcases opened_error he with hf | ⟨reason, rfl⟩
      · exact .of_fault hf.fault
      · exact .of_ne (by simp [Control.secondFetch])
    · rw [run_eq]
      exact follow_commences _ options _ ⟨rfl, rfl⟩

theorem conclude_regular (c : Client) (fresh : Bool) (hc : q.control.frame.Spent) (batch : Batch) :
    Regular options 1 (c.conclude fresh (q.deliver options.rowLimit batch)).2 := by
  rcases hd : q.deliver options.rowLimit batch with ⟨request | more | e, r⟩
  · exact (Query.deliver_spent hc request (congrArg (·.1) hd)).elim
  · rw [conclude, settle_result]
    exact ⟨by simp, fun _ _ _ => .inr rfl⟩
  · rw [conclude, settleError_result]
    exact .of_fault (Query.deliver_failed hd)

theorem answer_regular (c : Client) {call : Call} (hc : call.query.control.frame.Spent)
    (reply : Reply) : Regular call.options reply.batches (c.answer call reply).2 := by
  cases reply with
  | batch b => exact c.conclude_regular call.fresh hc b
  | failed e =>
    rw [answer, settleError_result]
    exact .of_ne (by simp [Control.secondFetch])
  | cancelled =>
    rw [answer, settleError_result]
    exact .of_ne (by simp [Control.secondFetch])

theorem timeOut_regular (c : Client) (call : Call) (milliseconds : Nat) :
    Regular call.options 0 (c.timeOut call milliseconds).2 := by
  rw [timeOut, settleError_result]
  exact .of_ne (by simp [Control.secondFetch])

variable {config : Config} {calls : List Call} {call : Call}

/-- A call that waits has had its fetch. -/
theorem History.spent (h : History config c calls) :
    ∀ call ∈ calls, call.query.control.frame.Spent := by
  induction h with
  | new => exact List.forall_mem_nil _
  | ended _ _ ih => exact ih
  | @waits c _ _ _ newId plan bindings options token _ he ih =>
    have hs := c.execute_commences newId plan bindings options token
    rw [he] at hs
    cases hs with
    | waiting hc => exact List.forall_mem_cons.2 ⟨hc, ih⟩
  | answered _ _ ih =>
    exact fun k hk => ih k (mem_middle hk)
  | timedOut _ _ ih =>
    exact fun k hk => ih k (mem_middle hk)
  | abandoned _ _ ih => exact ih

/-- One fetch for each call, and no idle call. Whatever clients do and servers answer, a call ends
without a fetch or waits for one batch, and then does not ask for another: it never fails because it
did. If it ends well and its query goes on, it has returned as many rows as it was to return at
most, or it has got exactly one batch. -/
theorem History.calls_regular (h : History config c calls) :
    (∀ newId plan bindings options token d result,
      c.execute newId plan bindings options token = (d, .done result) →
        Regular options 0 result) ∧
      (∀ newId plan bindings options token d call,
        c.execute newId plan bindings options token = (d, .waiting call) →
          call.options = options) ∧
      ∀ call ∈ calls,
        (∀ batch request, (call.query.deliver call.options.rowLimit batch).1 ≠ .waiting request) ∧
        (∀ reply, Regular call.options reply.batches (c.answer call reply).2) ∧
        ∀ milliseconds, Regular call.options 0 (c.timeOut call milliseconds).2 := by
  refine ⟨fun newId plan bindings options token d result he => ?_,
    fun newId plan bindings options token d call he => ?_, fun call hcall => ?_⟩
  · have hs := c.execute_commences newId plan bindings options token
    rw [he] at hs
    cases hs with
    | done hr => exact hr
  · have hs := c.execute_commences newId plan bindings options token
    rw [he] at hs
    cases hs with
    | waiting _ ho => exact ho
  · have hc := h.spent call hcall
    exact ⟨fun batch request => Query.deliver_spent hc request, c.answer_regular hc,
      c.timeOut_regular call⟩

end Client

namespace TwoPages

/-- The first call while it waits. -/
def waiting : Call :=
  match begun.2 with
  | .waiting call => call
  | .done _ => default

/-- How the first call ends once it has the first page. -/
def turned : Except QueryError Outcome :=
  (begun.1.answer waiting (.batch { rows := [row 2, row 1], continuation := some [1] })).2

end TwoPages

open TwoPages in
/-- The first of two pages of a sort: no row yet, and a token. -/
theorem Client.History.calls_regular_twoPages :
    turned.toOption.map (fun o => (o.rows.length, o.token.isSome)) = some (0, true) ∧
      Client.Regular waiting.options 1 turned := by
  have hb : begun = (begun.1, .waiting waiting) := by cbv
  have h : History site.client.config begun.1 [waiting] := .waits .new hb
  obtain ⟨-, hr, -⟩ := h.calls_regular.2.2 waiting (List.mem_cons_self ..)
  exact ⟨by cbv, hr (.batch { rows := [row 2, row 1], continuation := some [1] })⟩

end ShardQuery
