import ShardQuery.Proofs.Merge.Feed
import ShardQuery.Proofs.Merge.Heap
import ShardQuery.Proofs.Operator.Books
import ShardQuery.Proofs.Session.Transparency

/-!
The histories of a client: calls that begin, are answered, fail, are given up or time out, in any
order and beside each other, with servers that may answer anything. Whatever has happened, the
ledger of every query says exactly what its operators hold.
-/

namespace ShardQuery

namespace Scan

theorem exact_unstarted {s : Scan} (hs : s.stream.rows = [] ∧ s.stream.memory = 0)
    (hq : ∀ f ∈ s.queue.toList, f.rows = [] ∧ f.memory = 0) (hd : s.duplicateMemory = 0) :
    s.Exact ∧ s.held = 0 := by
  have exact {f : Feed} (hf : f.rows = [] ∧ f.memory = 0) : f.Exact := by
    rw [Feed.Exact, hf.1, hf.2]
    rfl
  refine ⟨⟨exact hs, fun f hf => exact (hq f hf)⟩, ?_⟩
  have hsum : (s.queue.toList.map Feed.memory).sum = 0 := by
    rw [List.sum_eq_zero]
    intro n hn
    obtain ⟨f, hf, rfl⟩ := List.mem_map.1 hn
    exact (hq f hf).2
  rw [held, hs.2, hsum, hd]

/-- A scan begins with feeds that have no rows. -/
theorem exact_ofInfo {reg : Nat} {info : ReceiveInfo} {shards : List Int} {s : Scan}
    (h : ofInfo reg info shards = .ok s) : s.Exact ∧ s.held = 0 := by
  have hd : Option.getD (Option.map DuplicateSet.memory (if info.primaryKey.isEmpty then none
      else some { fields := info.primaryKey })) 0 = 0 := by
    split <;> rfl
  unfold ofInfo at h
  simp only at h
  split at h
  · cases h
    exact exact_unstarted ⟨rfl, rfl⟩ nofun hd
  · cases h
    exact exact_unstarted ⟨rfl, rfl⟩ nofun hd
  · cases h
    exact exact_unstarted ⟨rfl, rfl⟩ nofun hd
  · split at h
    · cases h
    · cases h
      refine exact_unstarted ⟨rfl, rfl⟩ (fun f hf => ?_) hd
      have hp := (Heap.ofList_spec (Feed.compare info.specs)
        (shards.map fun shard => ({ id := shard, target := .shard shard } : Feed))).2
      obtain ⟨shard, -, rfl⟩ := List.mem_map.1 (hp.mem_iff.1 hf)
      exact ⟨rfl, rfl⟩

end Scan

namespace Operator

/-- Operators that were just made hold nothing. -/
theorem exact_ofStep {shards : List Int} : ∀ (step : PlanStep) {op : Operator},
    ofStep shards step = .ok op → op.Exact ∧ op.held = 0
  | .select reg source info columns offset limit, op, h => by
    rw [ofStep] at h
    obtain ⟨_, -, h⟩ := ok_of_bind h
    obtain ⟨_, -, h⟩ := ok_of_bind h
    obtain ⟨input, hi, h⟩ := ok_of_bind h
    obtain ⟨_, -, h⟩ := ok_of_bind h
    obtain ⟨_, -, h⟩ := ok_of_bind h
    obtain ⟨he, hh⟩ := exact_ofStep source hi
    cases h
    exact ⟨he, (Nat.zero_add _).trans hh⟩
  | .group reg input info, op, h => by
    rw [ofStep] at h
    split at h
    · cases h
    · obtain ⟨input, hi, h⟩ := ok_of_bind h
      obtain ⟨he, hh⟩ := exact_ofStep _ hi
      cases h
      exact ⟨⟨⟨rfl, Grouping.queued_of_nil rfl rfl⟩, he⟩, (Nat.zero_add _).trans hh⟩
  | .sort reg input specs countMemory, op, h => by
    rw [ofStep] at h
    split at h
    · cases h
    · obtain ⟨input, hi, h⟩ := ok_of_bind h
      obtain ⟨he, hh⟩ := exact_ofStep _ hi
      cases h
      exact ⟨⟨rfl, he⟩, (Nat.zero_add _).trans hh⟩
  | .receive reg info, op, h => by
    rw [ofStep] at h
    obtain ⟨s, hs, h⟩ := ok_of_bind h
    cases h
    exact Scan.exact_ofInfo hs
  | .const .., _, h | .varRef .., _, h | .externalVarRef .., _, h | .field .., _, h
  | .arith .., _, h | .aggregate .., _, h => by
    rw [ofStep] at h
    all_goals cases h

end Operator

namespace Query
variable {q r : Query}

/-- A query after one step of its operators. -/
def stepped (q : Query) (pending : Array Value) : Query :=
  { q with
    root := (q.root.step q.control).state
    control := (q.root.step q.control).control
    pending }

/-- A query that has taken in a batch and not yet gone on. -/
def received (q : Query) (batch : Batch) : Query :=
  { q with
    root := (q.root.deliver (q.control.recordBatch batch) batch).2.1
    control := (q.root.deliver (q.control.recordBatch batch) batch).2.2 }

/-- A query beside whose operators something was done: all that these go by is as it was. -/
structure Untouched (q r : Query) : Prop where
  plan : r.plan = q.plan
  root : r.root = q.root
  registers : r.control.registers = q.control.registers
  externals : r.control.externals = q.control.externals
  memory : r.memory = q.memory

/-- What is so of every new query and stays so whatever its operators do. -/
structure Lasting (P : Query → Prop) : Prop where
  new {id : Uuid} {plan : SharedPlan} {bindings : Bindings} {externals : List (Option Value)}
    {config : Config} {q : Query} (hb : plan.plan.bind bindings = .ok externals)
    (h : ofPlan id plan externals config = .ok q) : P q
  stepped {q : Query} (h : P q) (pending : Array Value) : P (q.stepped pending)
  received {q : Query} (h : P q) (batch : Batch) : P (q.received batch)
  untouched {q r : Query} (h : P q) (hr : q.Untouched r) : P r

namespace Lasting
variable {P : Query → Prop} (hP : Lasting P)
include hP

theorem begun (h : P q) (limit : Nat) : P (q.begun limit) :=
  hP.untouched h ⟨rfl, rfl, rfl, rfl, rfl⟩

theorem quiet (h : P q) : P q.quiet := hP.untouched h ⟨rfl, rfl, rfl, rfl, rfl⟩

theorem rested (h : P q) : P q.rested := hP.untouched h ⟨rfl, rfl, rfl, rfl, rfl⟩

theorem fetchFailed (h : P q) (e : QueryError) : P (q.fetchFailed e) :=
  hP.untouched h ⟨rfl, rfl, rfl, rfl, rfl⟩

theorem cancelled (h : P q) :
    P (Query.fetchFailed { q with control := q.control.emit .fetchCancelled } .cancelled) :=
  hP.untouched h ⟨rfl, rfl, rfl, rfl, rfl⟩

theorem issue (h : P q) {request : FetchRequest} (hi : q.issue request = .ok r) : P r := by
  rw [issue_ok hi]
  exact hP.untouched h ⟨rfl, rfl, rfl, rfl, rfl⟩

theorem pulled (h : P q) (pending : Array Value) :
    P { q with
      root := (q.root.pull q.control).state
      control := (q.root.pull q.control).control
      pending } := by
  induction hn : q.root.work using Nat.strongRecOn generalizing q with
  | ind n ih =>
    rw [Operator.pull_eq]
    split
    · rename_i hm
      have hw : (q.root.step q.control).state.work < q.root.work :=
        Operator.step_work_lt (by rw [hm]; rfl)
      exact ih _ (hn ▸ hw) (hP.stepped h q.pending) rfl
    · exact hP.stepped h pending

theorem advance (h : P q) (rowLimit : Option Nat) : P (q.advance rowLimit).2 := by
  induction hn : q.root.work using Nat.strongRecOn generalizing q with
  | ind n ih =>
    have hw := q.root.pull_work q.control
    rw [advance_eq]
    split
    · exact h
    · simp only
      split
      · rename_i hr
        exact ih _ (hn ▸ hw.2 hr) (hP.pulled h _) rfl
      all_goals exact hP.pulled h _

theorem deliver (h : P q) (rowLimit : Option Nat) (batch : Batch) :
    P (q.deliver rowLimit batch).2 := by
  have hr := hP.received h batch
  unfold Query.deliver
  simp only
  split
  · exact hr
  · exact hP.advance hr rowLimit

end Lasting

/-- The counts of the operators are right, and the ledger is charged with what they hold. -/
structure Balanced (q : Query) : Prop where
  exact : q.root.Exact
  memory : q.memory = q.root.held

theorem Balanced.of_booked {root : Operator} {control : Control} (h : q.Balanced)
    (hb : Booked q.control q.root.held root control) (pending : Array Value) :
    Balanced { q with root, control, pending } :=
  ⟨hb.exact, (hb.settles 0 (h.memory.trans (Nat.zero_add _).symm)).trans (Nat.zero_add _)⟩

theorem lasting_balanced : Lasting Balanced where
  new _ h := by
    obtain ⟨-, root, hr, rfl⟩ := Client.ofPlan_eq h
    obtain ⟨he, hh⟩ := Operator.exact_ofStep _ hr
    exact ⟨he, hh.symm⟩
  stepped {q} h pending := h.of_booked (Operator.step_booked h.exact q.control) pending
  received {q} h batch := by
    have hb := Operator.deliver_booked h.exact (q.control.recordBatch batch) batch
    have hc : q.control.Settles (q.control.recordBatch batch) q.root.held q.root.held :=
      .of_eq rfl _
    exact h.of_booked (hb.after hc) q.pending
  untouched h hr := ⟨hr.root ▸ h.exact, by rw [hr.memory, hr.root, h.memory]⟩

/-- Closing a query brings its ledger back to zero. -/
theorem Balanced.close (h : q.Balanced) : q.close.memory = 0 :=
  q.root.close_settles q.control 0 (h.memory.trans (Nat.zero_add _).symm)

end Query

namespace Client

/-- What a client and the calls that wait for its servers can come to. -/
inductive History (config : Config) : Client → List Call → Prop where
  | new : History config { config } []
  | ended {c d : Client} {calls : List Call} {newId : Uuid} {plan : SharedPlan}
    {bindings : Bindings} {options : CallOptions} {token : Option Token}
    {result : Except QueryError Outcome} (h : History config c calls)
    (he : c.execute newId plan bindings options token = (d, .done result)) :
    History config d calls
  | waits {c d : Client} {calls : List Call} {call : Call} {newId : Uuid} {plan : SharedPlan}
    {bindings : Bindings} {options : CallOptions} {token : Option Token}
    (h : History config c calls)
    (he : c.execute newId plan bindings options token = (d, .waiting call)) :
    History config d (call :: calls)
  | answered {c : Client} {before after : List Call} {call : Call}
    (h : History config c (before ++ call :: after)) (reply : Reply) :
    History config (c.answer call reply).1 (before ++ after)
  | timedOut {c : Client} {before after : List Call} {call : Call}
    (h : History config c (before ++ call :: after)) (milliseconds : Nat) :
    History config (c.timeOut call milliseconds).1 (before ++ after)
  | abandoned {c : Client} {calls : List Call} (h : History config c calls) (token : Token) :
    History config (c.abandon token).1 calls

/-- The queries of a client as calls leave them, whether these end well, fail or wait, and before
any query is closed. -/
inductive Leaves (c : Client) (calls : List Call) : Query → Prop where
  | suspended {q : Query} (h : q ∈ c.suspended) : Leaves c calls q
  | waiting {call : Call} (h : call ∈ calls) : Leaves c calls call.query
  | begun {q : Query} {errand : Errand} {token : Option Token} (h : c.opened errand token = .ok q)
    (options : CallOptions) : Leaves c calls
      ((q.begun (options.maxMemory.getD c.config.maxMemory)).advance options.rowLimit).2
  | answered {call : Call} (h : call ∈ calls) (batch : Batch) :
    Leaves c calls (call.query.deliver call.options.rowLimit batch).2
  | failed {call : Call} (h : call ∈ calls) (e : QueryError) :
    Leaves c calls (call.query.fetchFailed e)
  | cancelled {call : Call} (h : call ∈ calls) : Leaves c calls
      (Query.fetchFailed { call.query with control := call.query.control.emit .fetchCancelled }
        .cancelled)

/-- The queries of a client while calls are under way: before and after each step that operators
take, and as calls leave them. -/
inductive Moment (c : Client) (calls : List Call) : Query → Prop where
  | begun {q : Query} {errand : Errand} {token : Option Token} (h : c.opened errand token = .ok q)
    (limit : Nat) : Moment c calls (q.begun limit)
  | received {call : Call} (h : call ∈ calls) (batch : Batch) :
    Moment c calls (call.query.received batch)
  | stepped {q : Query} (h : Moment c calls q) (pending : Array Value) :
    Moment c calls (q.stepped pending)
  | left {q : Query} (h : Leaves c calls q) : Moment c calls q

/-- A client that has taken a query out of its suspended ones, or begun a new one, for a call. -/
def entered (c : Client) (errand : Errand) (token : Option Token) (q : Query) : Client :=
  let c := { c with metrics := c.metrics.countCall }
  match token with
  | some _ => c.remove q.id
  | none => c.log (.queryStart errand.plan.plan.root.mergesSorted)

/-- A call is turned down, or its query runs. -/
theorem execute_eq (c : Client) (errand : Errand) (options : CallOptions) (token : Option Token) :
    c.execute errand.newId errand.plan errand.bindings options token =
      if options.rowLimit = some 0 then
        ({ c with metrics := c.metrics.countCall },
          .done (.error (.invalidArgument "row limit must be positive")))
      else match c.opened errand token with
        | .error e => ({ c with metrics := c.metrics.countCall }, .done (.error e))
        | .ok q => (c.entered errand token q).run options token.isNone q := by
  cases token <;> rfl

/-- The query of a call with the settings of the call. -/
theorem run_eq (c : Client) (options : CallOptions) (fresh : Bool) (q : Query) :
    c.run options fresh q = c.follow options fresh
      ((q.begun (options.maxMemory.getD c.config.maxMemory)).advance options.rowLimit) := rfl

variable {config : Config} {c : Client} {calls : List Call} {call : Call} {q : Query}
  {P : Query → Prop}

/-- Something is so of all suspended queries. -/
def All (P : Query → Prop) (c : Client) : Prop := ∀ q ∈ c.suspended, P q

theorem All.keep (h : c.All P) (hq : P q) : (c.keep q).All P := by
  intro r hr
  rcases List.mem_cons.1 hr with rfl | hr
  · exact hq
  · exact h r (List.mem_of_mem_filter hr)

theorem All.remove (h : c.All P) (id : Uuid) : (c.remove id).All P := by
  intro r hr
  exact h r (List.mem_of_mem_filter hr)

theorem All.log (h : c.All P) (e : Event) : (c.log e).All P := h

theorem All.collect (h : c.All P) (q : Query) : (c.collect q).1.All P := by
  intro r hr
  rw [suspended_collect] at hr
  exact h r hr

theorem All.abandon (h : c.All P) (token : Token) : (c.abandon token).1.All P := by
  unfold Client.abandon
  split
  · exact h
  · exact ((h.remove _).collect _).log _

/-- A client of whose suspended queries something is so, with a call that is over or waits with such
a query. -/
def Starts (P : Query → Prop) : Client × CallState → Prop
  | (c, .done _) => c.All P
  | (c, .waiting call) => c.All P ∧ P call.query

section
variable (hP : Query.Lasting P)
include hP

theorem All.settle (h : c.All P) (hq : P q) (more : Bool) : (c.settle more q).1.All P := by
  have hc := h.collect q
  cases more with
  | true => exact All.keep (q := q.rested) hc (hP.rested hq)
  | false => exact hc

theorem All.settleError (h : c.All P) (hq : P q) (fresh : Bool) (e : QueryError) :
    (c.settleError fresh q e).1.All P := by
  have hc := h.collect q
  simp only [Client.settleError]
  split
  · exact hc
  · exact All.keep (q := q.quiet) hc (hP.quiet hq)

theorem All.follow (h : c.All P) (options : CallOptions) (fresh : Bool)
    {x : Progress × Query} (hx : P x.2) : Starts P (c.follow options fresh x) := by
  obtain ⟨request | more | e, q⟩ := x
  · simp only [Client.follow]
    split
    · exact h.settleError hP hx fresh _
    · rename_i r hi
      exact ⟨h.collect r, hP.quiet (hP.issue hx hi)⟩
  · exact h.settle hP hx more
  · exact h.settleError hP hx fresh e

theorem All.conclude (h : c.All P) (fresh : Bool) {x : Progress × Query} (hx : P x.2) :
    (c.conclude fresh x).1.All P := by
  obtain ⟨request | more | e, q⟩ := x
  · exact h.settleError hP hx fresh _
  · exact h.settle hP hx more
  · exact h.settleError hP hx fresh e

theorem All.opened (h : c.All P) {errand : Errand} {token : Option Token}
    (ho : c.opened errand token = .ok q) : P q := by
  cases token with
  | none =>
    obtain ⟨externals, hb, ho⟩ := opened_new ho
    exact hP.new hb ho
  | some token =>
    change c.resume errand.plan token = .ok q at ho
    unfold resume at ho
    split at ho
    · cases ho
    · rename_i hf
      simp only [Lease.runtime_of] at ho
      split at ho
      · cases ho
      · split at ho
        · cases ho
        · cases ho
          exact h q (List.mem_of_find?_eq_some hf)

theorem All.execute (h : c.All P) (newId : Uuid) (plan : SharedPlan) (bindings : Bindings)
    (options : CallOptions) (token : Option Token) :
    Starts P (c.execute newId plan bindings options token) := by
  rw [c.execute_eq ⟨newId, plan, bindings⟩]
  split
  · exact h
  · split
    · exact h
    · rename_i q ho
      rw [run_eq]
      refine All.follow hP ?_ options token.isNone
        (hP.advance (hP.begun (h.opened hP ho) _) options.rowLimit)
      cases token with
      | none => exact h
      | some _ => exact h.remove q.id

theorem All.answer (h : c.All P) (hq : P call.query) (reply : Reply) :
    (c.answer call reply).1.All P := by
  cases reply with
  | batch b => exact h.conclude hP call.fresh (hP.deliver hq call.options.rowLimit b)
  | failed e => exact h.settleError hP (hP.fetchFailed hq (.fetch e)) call.fresh _
  | cancelled => exact h.settleError hP (hP.cancelled hq) call.fresh _

end

/-- A call that waits beside another one. -/
theorem mem_middle {α : Type} {before after : List α} {k x : α} (h : k ∈ before ++ after) :
    k ∈ before ++ x :: after :=
  ((List.sublist_cons_self x after).append_left before).mem h

theorem History.all (hP : Query.Lasting P) (h : History config c calls) :
    c.All P ∧ ∀ call ∈ calls, P call.query := by
  induction h with
  | new => exact ⟨List.forall_mem_nil _, List.forall_mem_nil _⟩
  | @ended _ _ _ newId plan bindings options token _ h he ih =>
    have hs := ih.1.execute hP newId plan bindings options token
    rw [he] at hs
    exact ⟨hs, ih.2⟩
  | @waits _ _ _ _ newId plan bindings options token h he ih =>
    have hs := ih.1.execute hP newId plan bindings options token
    rw [he] at hs
    exact ⟨hs.1, List.forall_mem_cons.2 ⟨hs.2, ih.2⟩⟩
  | @answered c before after call h reply ih =>
    have hq := ih.2 call (List.mem_append_right _ (List.mem_cons_self ..))
    exact ⟨ih.1.answer hP hq reply, fun k hk => ih.2 k (mem_middle hk)⟩
  | @timedOut c before after call h milliseconds ih =>
    have hq := ih.2 call (List.mem_append_right _ (List.mem_cons_self ..))
    exact ⟨ih.1.settleError hP hq call.fresh _, fun k hk => ih.2 k (mem_middle hk)⟩
  | abandoned h token ih => exact ⟨ih.1.abandon token, ih.2⟩

section
variable (hP : Query.Lasting P) (hc : c.All P) (hw : ∀ call ∈ calls, P call.query)
include hP hc hw

theorem Leaves.lasting (h : Leaves c calls q) : P q := by
  cases h with
  | suspended h => exact hc q h
  | waiting h => exact hw _ h
  | begun ho options => exact hP.advance (hP.begun (hc.opened hP ho) _) options.rowLimit
  | answered h batch => exact hP.deliver (hw _ h) _ batch
  | failed h e => exact hP.fetchFailed (hw _ h) e
  | cancelled h => exact hP.cancelled (hw _ h)

theorem Moment.lasting (h : Moment c calls q) : P q := by
  induction h with
  | begun ho limit => exact hP.begun (hc.opened hP ho) limit
  | received h batch => exact hP.received (hw _ h) batch
  | stepped _ pending ih => exact hP.stepped ih pending
  | left h => exact h.lasting hP hc hw

end

theorem Leaves.balanced (h : History config c calls) (hl : Leaves c calls q) : q.Balanced :=
  have ⟨hc, hw⟩ := h.all Query.lasting_balanced
  hl.lasting Query.lasting_balanced hc hw

theorem Moment.balanced (h : History config c calls) (hm : Moment c calls q) : q.Balanced :=
  have ⟨hc, hw⟩ := h.all Query.lasting_balanced
  hm.lasting Query.lasting_balanced hc hw

/-- The ledger is exact. Whatever clients do and servers answer, every query that a call leaves
behind is charged with the sum of what its operators hold, and these counts are right: a feed
counts the bytes of its rows, a sorting those of the rows it holds, a grouping those of its groups.
At no moment is more given back than is charged, and a query that is closed holds nothing. -/
theorem History.ledger_exact (h : History config c calls) :
    (∀ q, Leaves c calls q → q.root.Exact ∧ q.memory = q.root.held ∧ q.close.memory = 0) ∧
      ∀ q l n, Moment c calls q → q.root.Releases q.control l n → n ≤ l.used := by
  refine ⟨fun q hl => ?_, fun q l n hm hr => ?_⟩
  · have hq := hl.balanced h
    exact ⟨hq.exact, hq.memory, hq.close⟩
  · have hq := hm.balanced h
    exact hr.le hq.exact (hq.memory.trans (Nat.zero_add _).symm)

end Client

namespace TwoPages

/-- The first call of a query, which waits for the first page. -/
def begun : Client × CallState :=
  site.client.execute errand.newId errand.plan errand.bindings {} none

/-- The query once that page has come: the call is over, and the sort holds two rows. -/
def paused : Client :=
  match begun with
  | (c, .waiting call) =>
    (c.answer call (.batch { rows := [row 2, row 1], continuation := some [1] })).1
  | (c, .done _) => c

end TwoPages

open TwoPages in
/-- A sort that has read a page of two rows and is to read another one. -/
theorem Client.History.ledger_exact_twoPages :
    ∃ q ∈ paused.suspended, q.memory = 130 ∧ q.root.held = 130 ∧ q.close.memory = 0 := by
  obtain ⟨call, hb⟩ : ∃ call, begun = (begun.1, .waiting call) := ⟨_, by cbv⟩
  have hp : paused = (begun.1.answer call
      (.batch { rows := [row 2, row 1], continuation := some [1] })).1 := by
    unfold paused
    rw [hb]
  have h : History site.client.config paused [] := by
    rw [hp]
    have hw : History site.client.config begun.1 ([] ++ call :: []) := .waits .new hb
    exact .answered hw _
  have hm : paused.suspended.map (·.memory) = [130] := by cbv
  obtain ⟨q, hq, hqm⟩ := List.map_eq_singleton_iff.1 hm
  have hmem : q ∈ paused.suspended := by simp [hq]
  obtain ⟨-, hheld, hclose⟩ := h.ledger_exact.1 q (.suspended hmem)
  exact ⟨q, hmem, hqm, hheld ▸ hqm, hclose⟩

end ShardQuery
