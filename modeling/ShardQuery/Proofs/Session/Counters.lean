import ShardQuery.Proofs.Operator.Notes
import ShardQuery.Proofs.Session.Refusal

/-!
The counters of a client, whatever its callers do and in whatever order. Calls, rows and completed
queries are counted as the callers see them. Of the fetches that are counted each has brought a
batch or is counted as failed, but for those whose call did not wait for what came of them.
-/

namespace ShardQuery

open Metrics (wrap wrap_add_wrap)

/-! ## Counters -/

/-- A counter, with what it goes up by: for a call, for a row that is handed out, for a query that
is completed, for a fetch that is sent and for one that fails. -/
structure Counter where
  read : Metrics → Nat
  call : Nat := 0
  row : Nat := 0
  completed : Nat := 0
  sent : Nat := 0
  failed : Nat := 0

namespace Counter

def event (k : Counter) : Event → Nat
  | .fetchIssued _ => k.sent
  | .fetchFailed _ => k.failed
  | .queryComplete _ => k.completed
  | _ => 0

/-- What a counter that has 64 bits does. -/
structure Lawful (k : Counter) : Prop where
  countCall {m : Metrics} {n : Nat} (h : k.read m = wrap n) :
    k.read m.countCall = wrap (n + k.call)
  countRows {m : Metrics} {n : Nat} (h : k.read m = wrap n) (rows : Nat) :
    k.read (m.countRows rows) = wrap (n + k.row * rows)
  observe {m : Metrics} {n : Nat} (h : k.read m = wrap n) (e : Event) :
    k.read (m.observe e) = wrap (n + k.event e)

def calls : Counter := { read := Metrics.calls, call := 1 }
def fetches : Counter := { read := Metrics.fetches, sent := 1 }
def fetchFailures : Counter := { read := Metrics.fetchFailures, failed := 1 }
def rowsReturned : Counter := { read := Metrics.rowsReturned, row := 1 }
def queriesCompleted : Counter := { read := Metrics.queriesCompleted, completed := 1 }

theorem wrap_succ {m n : Nat} (h : m = wrap n) (k : Nat) : wrap (m + k) = wrap (n + k) := by
  rw [h, wrap_add_wrap]

theorem calls_lawful : calls.Lawful where
  countCall h := wrap_succ h 1
  countRows h rows := by simpa [calls, Metrics.countRows] using h
  observe h e := by cases e <;> exact h

theorem fetches_lawful : fetches.Lawful where
  countCall h := h
  countRows h rows := by simpa [fetches, Metrics.countRows] using h
  observe h e := by
    cases e with
    | fetchIssued limit => exact wrap_succ h 1
    | _ => exact h

theorem fetchFailures_lawful : fetchFailures.Lawful where
  countCall h := h
  countRows h rows := by simpa [fetchFailures, Metrics.countRows] using h
  observe h e := by
    cases e with
    | fetchFailed e => exact wrap_succ h 1
    | _ => exact h

theorem rowsReturned_lawful : rowsReturned.Lawful where
  countCall h := h
  countRows h rows := (wrap_succ h rows).trans (by rw [rowsReturned, Nat.one_mul])
  observe h e := by cases e <;> exact h

theorem queriesCompleted_lawful : queriesCompleted.Lawful where
  countCall h := h
  countRows h rows := by simpa [queriesCompleted, Metrics.countRows] using h
  observe h e := by
    cases e with
    | queryComplete units => exact wrap_succ h 1
    | _ => exact h

/-- What a counter goes up by for what a query has noted. -/
def noted (k : Counter) (c : Control) : Nat := (c.events.map k.event).sum

theorem noted_eq (k : Counter) (c : Control) : k.noted c = (c.callEvents.map k.event).sum := by
  unfold noted Control.callEvents
  induction c.events with
  | nil => rfl
  | cons e rest ih =>
    rw [List.map_cons, List.sum_cons, ih]
    cases e <;> simp [Event.isOfOperators, event]

/-- What it goes up by for what a call returns. -/
def returned (k : Counter) : Except QueryError Outcome → Nat
  | .ok o => k.row * o.rows.length + if o.token.isNone then k.completed else 0
  | .error _ => 0

/-- The counter has gone up by so many, in its 64 bits. -/
def Advances (k : Counter) (c d : Client) (n : Nat) : Prop :=
  ∀ m, k.read c.metrics = wrap m → k.read d.metrics = wrap (m + n)

namespace Advances
variable {k : Counter} {c d e : Client} {m n : Nat}

theorem of_eq (h : d.metrics = c.metrics) : k.Advances c d 0 := fun _ hm => by
  rw [h]
  exact hm

theorem trans (h : k.Advances c d m) (h' : k.Advances d e n) : k.Advances c e (m + n) :=
  fun i hi => Nat.add_assoc i m n ▸ h' _ (h i hi)

variable (hk : k.Lawful)
include hk

theorem log (c : Client) (e : Event) : k.Advances c (c.log e) (k.event e) :=
  fun _ hm => hk.observe hm e

theorem foldl_log (events : List Event) (c : Client) :
    k.Advances c (events.foldl Client.log c) (events.map k.event).sum := by
  induction events generalizing c with
  | nil => exact .of_eq rfl
  | cons e rest ih => exact (log hk c e).trans (ih _)

theorem collect (c : Client) (q : Query) :
    k.Advances c (c.collect q).1 (k.noted q.control) := by
  have h := foldl_log hk q.control.events.reverse c
  rwa [List.map_reverse, List.sum_reverse] at h

theorem settle (c : Client) (more : Bool) (q : Query) :
    k.Advances c (c.settle more q).1 (k.noted q.control + k.returned (c.settle more q).2) := by
  have hrows : k.Advances c { (c.collect q).1 with
      metrics := (c.collect q).1.metrics.countRows q.pending.toList.length }
      (k.noted q.control + k.row * q.pending.toList.length) :=
    (collect hk c q).trans fun _ hm => hk.countRows hm _
  rw [Client.settle_result]
  cases more with
  | true => exact hrows.trans (log hk _ (.querySuspended q.pending.toList.length (q.sequence + 1)))
  | false =>
    rw [show k.returned (.ok (Client.reportOf false q)) = k.row * q.pending.toList.length +
      k.completed from rfl, ← Nat.add_assoc]
    exact hrows.trans (log hk _ (.queryComplete q.control.totalConsumed.readUnits))

theorem settleError (c : Client) (fresh : Bool) (q : Query) (e : QueryError) :
    k.Advances c (c.settleError fresh q e).1 (k.noted q.control) := by
  have h := (collect hk c q).trans (log hk (c.collect q).1 (.queryFailed e))
  unfold Client.settleError
  simp only
  split
  · exact h
  · exact h

theorem conclude (c : Client) (fresh : Bool) (p : Progress × Query) :
    k.Advances c (c.conclude fresh p).1
      (k.noted p.2.control + k.returned (c.conclude fresh p).2) := by
  obtain ⟨request | more | e, q⟩ := p
  · have h := settleError hk c fresh q Control.secondFetch
    rw [show (c.conclude fresh (.waiting request, q)).2 = .error Control.secondFetch from
      Client.settleError_result ..]
    exact h
  · exact settle hk c more q
  · have h := settleError hk c fresh q e
    rw [show (c.conclude fresh (.failed e, q)).2 = .error e from Client.settleError_result ..]
    exact h

end Advances
end Counter

/-! ## Queries that have nothing to tell -/

/-- All that a query noted has been logged. -/
def Query.Told (q : Query) : Prop := q.control.events = []

namespace Query
variable {q r s : Query}

theorem callEvents_of_told (h : q.Told) : q.control.callEvents = [] := by
  rw [Control.callEvents, h]
  rfl

theorem advance_callEvents (rowLimit : Option Nat) (q : Query) :
    (q.advance rowLimit).2.control.callEvents = q.control.callEvents := by
  induction h : q.root.work using Nat.strongRecOn generalizing q with
  | ind n ih =>
    have hpull := q.root.pull_callEvents q.control
    have hw := q.root.pull_work q.control
    rw [advance_eq]
    split
    · rfl
    · simp only
      split
      · rename_i hr
        exact (ih _ (h ▸ hw.2 hr) _ rfl).trans hpull
      all_goals exact hpull

theorem deliver_callEvents (rowLimit : Option Nat) (q : Query) (batch : Batch) :
    (q.deliver rowLimit batch).2.control.callEvents = q.control.callEvents := by
  have hdeliver : (q.received batch).control.callEvents = q.control.callEvents :=
    q.root.deliver_callEvents (q.control.recordBatch batch) batch
  rw [deliver_eq]
  split
  · exact hdeliver
  · exact (advance_callEvents rowLimit _).trans hdeliver

end Query

namespace Client
variable {c : Client} {q : Query}

/-- A query that is kept has told all. -/
theorem All.settle_told (h : c.All Query.Told) (more : Bool) (q : Query) :
    (c.settle more q).1.All Query.Told := by
  cases more with
  | true => exact All.keep (q := q.rested) (h.collect q) rfl
  | false => exact h.collect q

theorem All.settleError_told (h : c.All Query.Told) (fresh : Bool) (q : Query) (e : QueryError) :
    (c.settleError fresh q e).1.All Query.Told := by
  simp only [Client.settleError]
  split
  · exact h.collect q
  · exact All.keep (q := q.quiet) (h.collect q) rfl

theorem All.conclude_told (h : c.All Query.Told) (fresh : Bool) (p : Progress × Query) :
    (c.conclude fresh p).1.All Query.Told := by
  obtain ⟨request | more | e, q⟩ := p
  · exact h.settleError_told fresh q _
  · exact h.settle_told more q
  · exact h.settleError_told fresh q e

theorem All.finish_told (h : c.All Query.Told) (call : Call) (fate : Fate) :
    (c.finish call fate).1.All Query.Told := by
  rcases fate with ⟨batch | e | _⟩ | milliseconds
  · exact h.conclude_told call.fresh _
  · exact h.settleError_told call.fresh _ _
  · exact h.settleError_told call.fresh _ _
  · exact h.settleError_told call.fresh _ _

theorem told_of_opened {errand : Errand} {token : Option Token} (h : c.All Query.Told)
    (ho : c.opened errand token = .ok q) : q.Told := by
  cases token with
  | none =>
    obtain ⟨externals, -, hp⟩ := opened_new ho
    obtain ⟨-, root, -, rfl⟩ := ofPlan_eq hp
    rfl
  | some t => exact h q (List.mem_of_find?_eq_some (resume_eq_ok.1 ho).1)

end Client

/-! ## What callers see -/

namespace Fate

/-- Whether the fetch failed. -/
def fails : Fate → Bool
  | .replied (.failed _) | .replied .cancelled => true
  | .replied (.batch _) | .timedOut _ => false

/-- Whether the call did not wait for what came of the fetch. -/
def isLate : Fate → Bool
  | .timedOut _ => true
  | .replied _ => false

end Fate

namespace Sight

/-- Whether the call sent a request. -/
def isWaiting : Sight → Bool
  | .waiting _ => true
  | _ => false

/-- How many rows the callers got. -/
def rows : Sight → Nat
  | .returned (.ok o) => o.rows.length
  | _ => 0

/-- Whether a query was completed. -/
def completes : Sight → Bool
  | .returned (.ok o) => o.token.isNone
  | _ => false

end Sight

namespace Deed

def isStart : Deed → Bool
  | .start _ _ _ => true
  | _ => false

/-- How the wait of a call ends, if the deed ends one. The wait of a call that is forsaken ends
without a fate. -/
def ending? : Deed → List Call → Option (Option Fate)
  | .finish place fate, calls => if place < calls.length then some (some fate) else none
  | .forsake place, calls => if place < calls.length then some none else none
  | _, _ => none

/-- How the waits of calls end, one after the other. -/
def endings : List Deed → Client × List Call → List (Option Fate)
  | [], _ => []
  | deed :: rest, x => (deed.ending? x.2).toList ++ endings rest (deed.perform x).2

end Deed

namespace Counter
variable {k : Counter}

/-- What a counter goes up by for what is seen. -/
def seen (k : Counter) (s : Sight) : Nat :=
  k.sent * s.isWaiting.toNat + (k.row * s.rows + k.completed * s.completes.toNat)

theorem seen_returned (k : Counter) (result : Except QueryError Outcome) :
    k.seen (.returned result) = k.returned result := by
  cases result with
  | error e => simp [seen, returned, Sight.isWaiting, Sight.rows, Sight.completes]
  | ok o =>
    cases ht : o.token <;>
      simp [seen, returned, Sight.isWaiting, Sight.rows, Sight.completes, ht]

theorem sum_seen (k : Counter) (sights : List Sight) :
    (sights.map k.seen).sum = k.sent * sights.countP Sight.isWaiting +
      (k.row * (sights.map Sight.rows).sum + k.completed * sights.countP Sight.completes) := by
  induction sights with
  | nil => simp
  | cons s rest ih =>
    rw [List.map_cons, List.sum_cons, ih, seen, List.countP_cons, List.map_cons, List.sum_cons,
      List.countP_cons]
    cases s.isWaiting <;> cases s.completes <;> simp [Nat.mul_add] <;> ring

/-- What it goes up by for the ways in which waits of calls ended. -/
def failures (k : Counter) (endings : List (Option Fate)) : Nat :=
  k.failed * endings.countP (·.any Fate.fails)

namespace Advances
variable (hk : k.Lawful)
include hk

theorem finish (c : Client) (call : Call) (fate : Fate) (ht : call.query.Told) :
    k.Advances c (c.finish call fate).1
      (k.returned (c.finish call fate).2 + k.failures [some fate]) := by
  cases hf : fate.error? with
  | some e =>
    obtain ⟨q, hq, -, hevents⟩ := c.finish_struck call hf
    have hnoted : k.noted q.control = k.failures [some fate] := by
      rw [noted, hevents, ht, List.append_nil]
      rcases fate with ⟨batch | e | _⟩ | milliseconds
      · cases hf
      · simp [Fate.noted, event, failures, Fate.fails]
      · simp [Fate.noted, event, failures, Fate.fails]
      · simp [Fate.noted, failures, Fate.fails]
    have h := settleError hk c call.fresh q e
    rw [hnoted] at h
    rw [hq, Client.settleError_result, returned, Nat.zero_add]
    exact h
  | none =>
    obtain ⟨batch, rfl⟩ := Fate.exists_batch hf
    have hnone : k.noted (call.query.deliver call.options.rowLimit batch).2.control = 0 := by
      rw [noted_eq, Query.deliver_callEvents, Query.callEvents_of_told ht]
      rfl
    have h := conclude hk c call.fresh (call.query.deliver call.options.rowLimit batch)
    rw [hnone, Nat.zero_add] at h
    exact h

theorem abandon {c : Client} (hc : c.All Query.Told) (token : Token) :
    k.Advances c (c.abandon token).1 0 := by
  unfold Client.abandon
  split
  · exact .of_eq rfl
  · rename_i q hq
    have hnone : k.noted q.close.control = 0 := by
      have hclose : q.close.control.callEvents = q.control.callEvents :=
        q.root.close_callEvents q.control
      rw [noted_eq, hclose, Query.callEvents_of_told (hc q (List.mem_of_find?_eq_some hq))]
      rfl
    have h := (collect hk (c.remove token.query) q.close).trans (log hk _ .queryAbandoned)
    rw [hnone] at h
    exact h

theorem entered (c : Client) (errand : Errand) (token : Option Token) (q : Query) :
    k.Advances c (c.entered errand token q) k.call := by
  have hcall : k.Advances c { c with metrics := c.metrics.countCall } k.call :=
    fun _ hm => hk.countCall hm
  cases token with
  | none => exact hcall.trans (log hk _ (.queryStart errand.plan.plan.root.mergesSorted))
  | some t => exact hcall

end Advances

/-- What a call that begins makes of its client. -/
def Begins (k : Counter) (c : Client) : Client × CallState → Prop
  | (d, .done result) => d.All Query.Told ∧ k.Advances c d (k.call + k.returned result)
  | (d, .waiting call) =>
    d.All Query.Told ∧ call.query.Told ∧ k.Advances c d (k.call + k.sent)

theorem begins_execute (hk : k.Lawful) {c : Client} (hc : c.All Query.Told) (errand : Errand)
    (options : CallOptions) (token : Option Token) :
    k.Begins c (c.execute errand.newId errand.plan errand.bindings options token) := by
  have hcall : k.Advances c { c with metrics := c.metrics.countCall } k.call :=
    fun _ hm => hk.countCall hm
  rw [c.execute_eq]
  split
  · exact ⟨hc, hcall⟩
  split
  · exact ⟨hc, hcall⟩
  rename_i q ho
  have hentered := Advances.entered hk c errand token q
  have hall : (c.entered errand token q).All Query.Told := by
    cases token with
    | none => exact hc
    | some t => exact hc.remove q.id
  rw [Client.run_eq]
  have hbegun (limit : Nat) : (q.begun limit).Told :=
    show q.Told from Client.told_of_opened hc ho
  have hevents := Query.advance_callEvents options.rowLimit
    (q.begun (options.maxMemory.getD (c.entered errand token q).config.maxMemory))
  rw [Query.callEvents_of_told (hbegun _)] at hevents
  generalize (q.begun _).advance options.rowLimit = p at hevents
  have hnone : k.noted p.2.control = 0 := by
    rw [noted_eq, hevents]
    rfl
  obtain ⟨request | more | e, r⟩ := p
  · simp only [Client.follow]
    split
    · rename_i e _
      have h := hentered.trans (Advances.settleError hk _ token.isNone r e)
      rw [hnone] at h
      refine ⟨hall.settleError_told _ r e, ?_⟩
      rw [Client.settleError_result]
      exact h
    · rename_i s hi
      have hsent : k.noted s.control = k.sent := by
        rw [Query.issue_ok hi]
        change k.sent + k.noted r.control = k.sent
        rw [hnone, Nat.add_zero]
      have h := hentered.trans (Advances.collect hk _ s)
      rw [hsent] at h
      exact ⟨hall.collect s, rfl, h⟩
  · have h := hentered.trans (Advances.settle hk _ more r)
    rw [hnone, Nat.zero_add] at h
    exact ⟨hall.settle_told more r, h⟩
  · have h := hentered.trans (Advances.settleError hk _ token.isNone r e)
    rw [hnone] at h
    refine ⟨hall.settleError_told _ r e, ?_⟩
    change k.Advances c ((c.entered errand token q).settleError token.isNone r e).1
      (k.call + k.returned ((c.entered errand token q).settleError token.isNone r e).2)
    rw [Client.settleError_result]
    exact h

/-! ## Whole histories -/

/-- A client and its calls when all that their queries noted has been logged. -/
structure Told (x : Client × List Call) : Prop where
  client : x.1.All Query.Told
  calls : ∀ call ∈ x.2, call.query.Told

theorem perform (hk : k.Lawful) {x : Client × List Call} (hx : Told x) (deed : Deed) :
    Told (deed.perform x).2 ∧
      k.Advances x.1 (deed.perform x).2.1 (k.call * deed.isStart.toNat +
        (k.seen (deed.perform x).1 + k.failures (deed.ending? x.2).toList)) := by
  obtain ⟨c, calls⟩ := x
  obtain ⟨hc, hcalls⟩ := hx
  replace hc : c.All Query.Told := hc
  replace hcalls : ∀ call ∈ calls, call.query.Told := hcalls
  have hnothing : k.Advances c c (0 + (k.seen .nothing + k.failures [])) := .of_eq rfl
  cases deed with
  | start errand options token =>
    have hb := begins_execute hk hc errand options token
    simp only [Deed.perform]
    generalize c.execute errand.newId errand.plan errand.bindings options token = y at hb
    cases y with | mk d state =>
    cases state with
    | done result =>
      obtain ⟨hd, ha⟩ := hb
      refine ⟨⟨hd, hcalls⟩, ?_⟩
      rw [seen_returned]
      change k.Advances c d (k.call * 1 + (k.returned result + 0))
      rwa [Nat.mul_one, Nat.add_zero]
    | waiting call =>
      obtain ⟨hd, ht, ha⟩ := hb
      refine ⟨⟨hd, List.forall_mem_cons.2 ⟨ht, hcalls⟩⟩, ?_⟩
      change k.Advances c d (k.call * 1 + (k.sent * 1 + 0))
      rwa [Nat.mul_one, Nat.mul_one, Nat.add_zero]
  | finish place fate =>
    cases hp : calls[place]? with
    | none =>
      have hplace : ¬place < calls.length := Nat.not_lt.2 (List.getElem?_eq_none_iff.1 hp)
      simp only [Deed.perform, hp, Deed.ending?, if_neg hplace]
      exact ⟨⟨hc, hcalls⟩, hnothing⟩
    | some call =>
      have hplace : place < calls.length := (List.getElem?_eq_some_iff.1 hp).1
      have ht : call.query.Told := hcalls call (List.mem_of_getElem? hp)
      simp only [Deed.perform, hp, Deed.ending?, if_pos hplace, seen_returned, Option.toList_some]
      refine ⟨⟨hc.finish_told call fate, fun r hr => hcalls r (List.mem_of_mem_eraseIdx hr)⟩, ?_⟩
      have h := Advances.finish hk c call fate ht
      change k.Advances c (c.finish call fate).1 (0 + _)
      rwa [Nat.zero_add]
  | forsake place =>
    cases hp : calls[place]? with
    | none =>
      have hplace : ¬place < calls.length := Nat.not_lt.2 (List.getElem?_eq_none_iff.1 hp)
      simp only [Deed.perform, hp, Deed.ending?, if_neg hplace]
      exact ⟨⟨hc, hcalls⟩, hnothing⟩
    | some call =>
      have hplace : place < calls.length := (List.getElem?_eq_some_iff.1 hp).1
      have ht : call.query.Told := hcalls call (List.mem_of_getElem? hp)
      simp only [Deed.perform, hp, Deed.ending?, if_pos hplace, Option.toList_some]
      exact ⟨⟨hc.keep ht, fun r hr => hcalls r (List.mem_of_mem_eraseIdx hr)⟩, .of_eq rfl⟩
  | abandon token =>
    refine ⟨⟨hc.abandon token, hcalls⟩, ?_⟩
    change k.Advances c (c.abandon token).1 0
    exact Advances.abandon hk hc token

theorem failures_append (k : Counter) (xs ys : List (Option Fate)) :
    k.failures (xs ++ ys) = k.failures xs + k.failures ys := by
  rw [failures, List.countP_append, Nat.mul_add]
  rfl

theorem performAll (hk : k.Lawful) {x : Client × List Call} (hx : Told x) (deeds : List Deed) :
    k.Advances x.1 (Deed.performAll deeds x).2.1 (k.call * deeds.countP Deed.isStart +
      (((Deed.performAll deeds x).1.map k.seen).sum + k.failures (Deed.endings deeds x))) := by
  induction deeds generalizing x with
  | nil => exact .of_eq rfl
  | cons deed rest ih =>
    obtain ⟨htold, hdeed⟩ := perform hk hx deed
    have h := hdeed.trans (ih htold)
    have hstart : (deed :: rest).countP Deed.isStart =
        deed.isStart.toNat + rest.countP Deed.isStart := by
      rw [List.countP_cons, Nat.add_comm]
      cases deed.isStart <;> rfl
    rw [hstart, Deed.endings, failures_append]
    simp only [Deed.performAll, List.map_cons, List.sum_cons]
    convert h using 1
    ring

/-- What a counter that starts from zero comes to. -/
theorem Lawful.read_performAll (hk : k.Lawful) (h0 : k.read {} = wrap 0) (config : Config)
    (deeds : List Deed) :
    let x : Client × List Call := ({ config }, [])
    let sights := (Deed.performAll deeds x).1
    k.read (Deed.performAll deeds x).2.1.metrics =
      wrap (k.call * deeds.countP Deed.isStart +
        (k.sent * sights.countP Sight.isWaiting + (k.row * (sights.map Sight.rows).sum +
          k.completed * sights.countP Sight.completes) +
        k.failed * (Deed.endings deeds x).countP (·.any Fate.fails))) := by
  have hnew : Told ({ config }, []) := ⟨List.forall_mem_nil _, List.forall_mem_nil _⟩
  have h := performAll hk hnew deeds 0 h0
  rwa [Nat.zero_add, sum_seen] at h

end Counter

namespace Deed

theorem length_perform (deed : Deed) (x : Client × List Call) :
    x.2.length + (deed.perform x).1.isWaiting.toNat =
      (deed.perform x).2.2.length + (deed.ending? x.2).toList.length := by
  obtain ⟨c, calls⟩ := x
  cases deed with
  | start errand options token =>
    simp only [perform]
    generalize c.execute errand.newId errand.plan errand.bindings options token = y
    cases y with | mk d state =>
    cases state <;> rfl
  | finish place fate | forsake place =>
    cases hp : calls[place]? with
    | none =>
      have hplace : ¬place < calls.length := Nat.not_lt.2 (List.getElem?_eq_none_iff.1 hp)
      simp only [perform, hp, ending?, if_neg hplace]
      rfl
    | some call =>
      have hplace : place < calls.length := (List.getElem?_eq_some_iff.1 hp).1
      simp only [perform, hp, ending?, if_pos hplace]
      exact (List.length_eraseIdx_add_one hplace).symm
  | abandon token => rfl

/-- Each request that was sent waits or has come to an end. -/
theorem length_performAll (deeds : List Deed) (x : Client × List Call) :
    x.2.length + (performAll deeds x).1.countP Sight.isWaiting =
      (performAll deeds x).2.2.length + (endings deeds x).length := by
  induction deeds generalizing x with
  | nil => rfl
  | cons deed rest ih =>
    have hdeed := deed.length_perform x
    have hrest := ih (deed.perform x).2
    simp only [performAll, endings, List.countP_cons, List.length_append]
    have hwaiting : (if (deed.perform x).1.isWaiting = true then 1 else 0) =
        (deed.perform x).1.isWaiting.toNat := by
      cases (deed.perform x).1.isWaiting <;> rfl
    omega

/-- An end is a failure, a batch, a call that did not wait for it, or no end at all. -/
theorem length_endings (ends : List (Option Fate)) :
    ends.length = ends.countP (·.any Fate.fails) + ends.countP (·.any (·.batch?.isSome)) +
      ends.countP (·.any Fate.isLate) + ends.countP Option.isNone := by
  induction ends with
  | nil => rfl
  | cons e rest ih =>
    rw [List.length_cons, ih]
    simp only [List.countP_cons]
    rcases e with _ | ⟨batch | e | _⟩ | milliseconds <;>
      simp [Fate.fails, Fate.batch?, Fate.isLate] <;> omega

end Deed

/-- The counters balance. Callers see as many calls, rows and completed queries as are counted. Of
the fetches that are counted, those that did not fail have brought a batch, unless the call ran out
of time during its fetch, was forsaken or still waits. -/
theorem Client.metrics_balance (config : Config) (deeds : List Deed) :
    let x : Client × List Call := ({ config }, [])
    let sights := (Deed.performAll deeds x).1
    let metrics := (Deed.performAll deeds x).2.1.metrics
    let waiting := (Deed.performAll deeds x).2.2
    let ends := Deed.endings deeds x
    metrics.calls = wrap (deeds.countP Deed.isStart) ∧
      metrics.rowsReturned = wrap (sights.map Sight.rows).sum ∧
      metrics.queriesCompleted = wrap (sights.countP Sight.completes) ∧
      metrics.fetchFailures = wrap (ends.countP (·.any Fate.fails)) ∧
      metrics.fetches = wrap (metrics.fetchFailures + ends.countP (·.any (·.batch?.isSome)) +
        ends.countP (·.any Fate.isLate) + (ends.countP Option.isNone + waiting.length)) := by
  intro x sights metrics waiting ends
  have hread {k : Counter} (hk : k.Lawful) (h0 : k.read {} = wrap 0) := hk.read_performAll h0
    config deeds
  have hfailures : metrics.fetchFailures = wrap (ends.countP (·.any Fate.fails)) := by
    simpa [Counter.fetchFailures] using hread Counter.fetchFailures_lawful rfl
  refine ⟨?_, ?_, ?_, hfailures, ?_⟩
  · simpa [Counter.calls] using hread Counter.calls_lawful rfl
  · simpa [Counter.rowsReturned] using hread Counter.rowsReturned_lawful rfl
  · simpa [Counter.queriesCompleted] using hread Counter.queriesCompleted_lawful rfl
  · have hsent : metrics.fetches = wrap (sights.countP Sight.isWaiting) := by
      simpa [Counter.fetches] using hread Counter.fetches_lawful rfl
    have hends : sights.countP Sight.isWaiting = ends.countP (·.any Fate.fails) +
        (ends.countP (·.any (·.batch?.isSome)) + ends.countP (·.any Fate.isLate) +
          (ends.countP Option.isNone + waiting.length)) := by
      have hsum := Deed.length_performAll deeds x
      have hkinds := Deed.length_endings ends
      change 0 + sights.countP Sight.isWaiting = waiting.length + ends.length at hsum
      omega
    rw [hsent, hends, hfailures, Nat.add_assoc (wrap _), Nat.add_assoc (wrap _), wrap_add_wrap]

open TwoPages in
/-- The one call there is runs out of time. Its fetch has neither failed nor brought a batch. -/
theorem Client.metrics_late_twoPages :
    let x : Client × List Call := (site.client, [])
    let deeds := [.start errand {} none, .finish 0 (.timedOut 5)]
    let metrics := (Deed.performAll deeds x).2.1.metrics
    (Deed.performAll deeds x).2.2 = [] ∧ Deed.endings deeds x = [some (.timedOut 5)] ∧
      metrics.fetches ≠ metrics.fetchFailures +
        (Deed.endings deeds x).countP (·.any (·.batch?.isSome)) := by
  intro x deeds metrics
  have hreturned : (Deed.performAll deeds x).2.2 = [] := by cbv
  have hends : Deed.endings deeds x = [some (.timedOut 5)] := by cbv
  have hfetches : (Deed.performAll deeds x).2.1.metrics.fetches = 1 := by cbv
  have hfailures : (Deed.performAll deeds x).2.1.metrics.fetchFailures = 0 := by cbv
  refine ⟨hreturned, hends, ?_⟩
  rw [hfetches, hfailures, hends]
  decide

end ShardQuery
