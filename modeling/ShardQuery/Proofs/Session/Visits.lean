import ShardQuery.Proofs.Session.Calls
import ShardQuery.Proofs.Session.Retry

/-!
One query from its first call on, with whatever may happen to each call. A visit is what the caller
and the servers see of one call; what a course of visits does to the query is told call by call.
-/

namespace ShardQuery

/-- How the wait of a call ends. -/
inductive Fate where
  | replied (reply : Reply)
  | timedOut (milliseconds : Nat)
  deriving Inhabited

namespace Fate

def batch? : Fate → Option Batch
  | .replied (.batch b) => some b
  | _ => none

/-- The failure of the call, if no batch has come. -/
def error? : Fate → Option QueryError
  | .replied (.batch _) => none
  | .replied (.failed e) => some (.fetch e)
  | .replied .cancelled => some .cancelled
  | .timedOut milliseconds => some (.timeout milliseconds)

/-- What the query notes of it, the latest first. -/
def noted : Fate → List Event
  | .replied (.batch _) | .timedOut _ => []
  | .replied (.failed e) => [.fetchFailed (.fetch e)]
  | .replied .cancelled => [.fetchFailed .cancelled, .fetchCancelled]

theorem batch?_of_error {f : Fate} {e : QueryError} (h : f.error? = some e) : f.batch? = none := by
  rcases f with ⟨_ | _ | _⟩ | _
  · cases h
  all_goals rfl

theorem exists_batch {f : Fate} (h : f.error? = none) : ∃ batch, f = .replied (.batch batch) := by
  rcases f with ⟨batch | _ | _⟩ | _
  · exact ⟨batch, rfl⟩
  all_goals cases h

end Fate

/-- A call with what becomes of its fetch, should it make one. -/
structure Attempt where
  options : CallOptions := {}
  fate : Fate

/-- What is seen of a call. -/
structure Visit where
  options : CallOptions
  /-- The request that it made, if it made one, and what became of it. -/
  sent : Option (FetchRequest × Fate)
  result : Except QueryError Outcome

namespace Visit

def failed (v : Visit) : Bool :=
  match v.result with
  | .ok _ => false
  | .error _ => true

/-- The token for the next call, after a call with the given one. -/
def next (token : Option Token) (v : Visit) : Option Token :=
  match v.result with
  | .ok o => o.token
  | .error _ => token

/-- Of some visits and one more, each is the new one or one of those before it. -/
theorem split_concat {past before after : List Visit} {u v : Visit}
    (h : past ++ [v] = before ++ u :: after) :
    before = past ∧ u = v ∨ ∃ rest, past = before ++ u :: rest := by
  rcases List.eq_nil_or_concat after with rfl | ⟨rest, w, rfl⟩
  · obtain ⟨rfl, hu⟩ := List.append_inj' h rfl
    exact .inl ⟨rfl, (List.cons.inj hu).1.symm⟩
  · have h' : past ++ [v] = (before ++ u :: rest) ++ [w] := by simpa using h
    exact .inr ⟨rest, List.append_inj_left' h' rfl⟩

end Visit

namespace Client

/-- Ends a call that waits. -/
def finish (c : Client) (call : Call) : Fate → Client × Except QueryError Outcome
  | .replied reply => c.answer call reply
  | .timedOut milliseconds => c.timeOut call milliseconds

/-- What is seen of a call that has begun. -/
def complete (a : Attempt) : Client × CallState → Client × Visit
  | (c, .done result) => (c, ⟨a.options, none, result⟩)
  | (c, .waiting call) =>
    let (c, result) := c.finish call a.fate
    (c, ⟨a.options, some (call.request, a.fate), result⟩)

/-- One call from its beginning to its end. -/
def attempt (errand : Errand) (token : Option Token) (a : Attempt) (c : Client) : Client × Visit :=
  complete a (c.execute errand.newId errand.plan errand.bindings a.options token)

/-- Calls one after the other, each with the latest token, until there is none. A call that failed
is followed by one with the same token. -/
def course (errand : Errand) : List Attempt → Option Token → Client → List Visit
  | [], _, _ => []
  | a :: rest, token, c =>
    let (c, v) := c.attempt errand token a
    match v.next token with
    | none => [v]
    | some t => v :: course errand rest (some t) c

end Client

/-! ## What a call does to its query -/

namespace Query

/-- A visit to a query: what is seen of it, what the query notes of it, the latest first, and the
query that is kept for the next call. -/
inductive Meets (limit : Nat) (fresh : Bool) (a : Attempt) (q : Query) :
    Visit → List Event → Option Query → Prop
  | idle {more : Bool} {r : Query}
    (ha : (q.begun limit).advance a.options.rowLimit = (.finished more, r)) :
    Meets limit fresh a q ⟨a.options, none, .ok (Client.reportOf more r)⟩ r.control.events
      (if more then some r.rested else none)
  | broken {e : QueryError} {r : Query}
    (ha : (q.begun limit).advance a.options.rowLimit = (.failed e, r)) :
    Meets limit fresh a q ⟨a.options, none, .error e⟩ r.control.events none
  | served {request : FetchRequest} {r s t : Query} {batch : Batch} {more : Bool}
    (ha : (q.begun limit).advance a.options.rowLimit = (.waiting request, r))
    (hi : r.issue request = .ok s) (hf : a.fate = .replied (.batch batch))
    (hd : s.quiet.deliver a.options.rowLimit batch = (.finished more, t)) :
    Meets limit fresh a q ⟨a.options, some (request, a.fate), .ok (Client.reportOf more t)⟩
      (t.control.events ++ s.control.events) (if more then some t.rested else none)
  | spoiled {request : FetchRequest} {r s t : Query} {batch : Batch} {e : QueryError}
    (ha : (q.begun limit).advance a.options.rowLimit = (.waiting request, r))
    (hi : r.issue request = .ok s) (hf : a.fate = .replied (.batch batch))
    (hd : s.quiet.deliver a.options.rowLimit batch = (.failed e, t)) :
    Meets limit fresh a q ⟨a.options, some (request, a.fate), .error e⟩
      (t.control.events ++ s.control.events) none
  | struck {request : FetchRequest} {r s : Query} {e : QueryError}
    (ha : (q.begun limit).advance a.options.rowLimit = (.waiting request, r))
    (hi : r.issue request = .ok s) (hf : a.fate.error? = some e) :
    Meets limit fresh a q ⟨a.options, some (request, a.fate), .error e⟩
      (a.fate.noted ++ s.control.events) (if fresh || !e.isRetryable then none else some s.quiet)

/-- By what a token and a plan are told to be those of a query. -/
def label (q : Query) : Uuid × SharedPlan × Nat := (q.id, q.plan, q.sequence)

theorem advance_label (rowLimit : Option Nat) (q : Query) :
    (q.advance rowLimit).2.label = q.label :=
  congrArg (fun i => (i.1, i.2.1, i.2.2.1)) (q.advance_identity rowLimit)

theorem deliver_label (rowLimit : Option Nat) (q : Query) (batch : Batch) :
    (q.deliver rowLimit batch).2.label = q.label :=
  congrArg (fun i => (i.1, i.2.1, i.2.2.1)) (q.deliver_identity rowLimit batch)

/-- To spend the fetch of a call is a matter of its control. -/
theorem issue_controls {r s : Query} {request : FetchRequest} (hi : r.issue request = .ok s) :
    ∃ control, s = { r with control } := ⟨_, issue_ok hi⟩

theorem issue_label {r s : Query} {request : FetchRequest} (hi : r.issue request = .ok s) :
    s.label = r.label := by
  obtain ⟨control, rfl⟩ := issue_controls hi
  rfl

end Query

namespace Metrics

theorem wrap_add_wrap (m n : Nat) : wrap (wrap m + n) = wrap (m + n) := Nat.mod_add_mod ..

end Metrics

namespace Client
variable {c d : Client} {errand : Errand} {token : Option Token} {a : Attempt} {q r : Query}

/-- The counter of dropped rows has gone up by so many, in its 64 bits. -/
def CountsDrops (c d : Client) (n : Nat) : Prop :=
  d.metrics.duplicatesDropped =
    if n = 0 then c.metrics.duplicatesDropped else Metrics.wrap (c.metrics.duplicatesDropped + n)

theorem CountsDrops.of_eq (h : d.metrics.duplicatesDropped = c.metrics.duplicatesDropped) :
    CountsDrops c d 0 := h

theorem CountsDrops.trans {e : Client} {m n : Nat} (h : CountsDrops c d m)
    (h' : CountsDrops d e n) : CountsDrops c e (m + n) := by
  unfold CountsDrops at h h' ⊢
  rcases Nat.eq_zero_or_pos m with rfl | hm
  · rw [h', h, if_pos rfl, Nat.zero_add]
  · rw [if_neg (by omega)] at h ⊢
    rcases Nat.eq_zero_or_pos n with rfl | hn
    · rw [h', h, if_pos rfl, Nat.add_zero]
    · rw [h', h, if_neg (by omega), Metrics.wrap_add_wrap, Nat.add_assoc]

theorem log_countsDrops (c : Client) (e : Event) :
    CountsDrops c (c.log e) (if e = .duplicateDropped then 1 else 0) := by
  cases e with
  | duplicateDropped => rfl
  | _ => exact .of_eq rfl

theorem foldl_log_countsDrops (events : List Event) (c : Client) :
    CountsDrops c (events.foldl log c) (events.count .duplicateDropped) := by
  induction events generalizing c with
  | nil => exact .of_eq rfl
  | cons e rest ih =>
    have h := (c.log_countsDrops e).trans (ih (c.log e))
    rw [List.count_cons, Nat.add_comm]
    simpa using h

theorem collect_countsDrops (c : Client) (q : Query) :
    CountsDrops c (c.collect q).1 (q.control.events.count .duplicateDropped) := by
  have h := foldl_log_countsDrops q.control.events.reverse c
  rwa [List.count_reverse] at h

theorem settle_countsDrops (c : Client) (more : Bool) (q : Query) :
    CountsDrops c (c.settle more q).1 (q.control.events.count .duplicateDropped) := by
  cases more with
  | true => exact (c.collect_countsDrops q).trans (.of_eq rfl)
  | false => exact (c.collect_countsDrops q).trans (.of_eq rfl)

theorem settleError_countsDrops (c : Client) (fresh : Bool) (q : Query) (e : QueryError) :
    CountsDrops c (c.settleError fresh q e).1 (q.control.events.count .duplicateDropped) := by
  refine (c.collect_countsDrops q).trans (n := 0) ?_
  simp only [settleError]
  split <;> exact .of_eq rfl

/-- A failure for good leaves the suspended queries alone. -/
theorem settleError_lost {fresh : Bool} {e : QueryError} (h : (fresh || !e.isRetryable) = true) :
    (c.settleError fresh q e).1.suspended = c.suspended := by
  simp only [settleError, h]
  exact c.suspended_collect q

/-- What became of a query after a call that failed, as the token of the call finds it. -/
theorem opened_settleError {fresh : Bool} {e : QueryError} {t : Token}
    (ho : c.opened errand (some t) = .ok q) (hl : r.label = q.label)
    (hd : d.suspended = (c.remove q.id).suspended) (hf : fresh = false) :
    ((d.settleError fresh r e).1.opened errand (some t)).toOption =
      if fresh || !e.isRetryable then none else some r.quiet := by
  obtain ⟨hq, hs, hp⟩ := resume_eq_ok.1 ho
  have hid : q.id = t.query := id_of_find? hq
  have hrid : r.id = t.query := (congrArg (·.1) hl).trans hid
  have hrs : r.sequence = t.sequence := (congrArg (·.2.2) hl).trans hs
  have hrp : r.plan.agrees errand.plan = true := by
    rw [show r.plan = q.plan from congrArg (·.2.1) hl]
    exact hp
  split
  · rename_i hlost
    have hnone : (d.settleError fresh r e).1.find? t.query = none := by
      rw [find?, settleError_lost hlost, hd, hid]
      simp [remove]
    simp only [opened, resume, hnone]
    rfl
  · rename_i hkept
    obtain ⟨-, hret⟩ : fresh = false ∧ e.isRetryable = true := by simpa using hkept
    have hsome : (d.settleError fresh r e).1.find? t.query = some r.quiet := by
      rw [hf, find?, settleError_suspended _ _ hret]
      exact List.find?_cons_of_pos (by simpa [Query.quiet] using hrid)
    have : (d.settleError fresh r e).1.opened errand (some t) = .ok r.quiet :=
      resume_eq_ok.2 ⟨hsome, hrs, hrp⟩
    rw [this]
    rfl

/-- What a call is to its client: it is turned down, or it meets with a query. -/
inductive Turns (c : Client) (errand : Errand) (token : Option Token) (a : Attempt) :
    Client × Visit → Prop
  | refused {d : Client} {e : QueryError} (hc : d.config = c.config)
    (hs : d.suspended = c.suspended) :
    Turns c errand token a (d, ⟨a.options, none, .error e⟩)
  | met {d : Client} {v : Visit} {q : Query} {noted : List Event} {left : Option Query}
    (hc : d.config = c.config) (ho : c.opened errand token = .ok q)
    (hm : q.Meets (a.options.maxMemory.getD c.config.maxMemory) token.isNone a v noted left)
    (hl : ∀ t, v.next token = some t → (d.opened errand (some t)).toOption = left)
    (hn : CountsDrops c d (noted.count .duplicateDropped)) : Turns c errand token a (d, v)

theorem entered_countsDrops (c : Client) (errand : Errand) (token : Option Token) (q : Query) :
    CountsDrops c (c.entered errand token q) 0 := by
  cases token <;> exact .of_eq rfl

/-- The query of a call is one of the caller's plan. -/
theorem opened_agrees (ho : c.opened errand token = .ok q) : q.plan.agrees errand.plan = true := by
  cases token with
  | none => exact (idle_new ho).agrees
  | some t => exact (resume_eq_ok.1 ho).2.2

/-- The end of a call that no batch came for. -/
theorem finish_struck (c : Client) (call : Call) {f : Fate} {e : QueryError}
    (h : f.error? = some e) :
    ∃ q : Query, c.finish call f = c.settleError call.fresh q e ∧ q.quiet = call.query.quiet ∧
      q.control.events = f.noted ++ call.query.control.events := by
  rcases f with ⟨_ | e | _⟩ | ms
  · cases h
  · cases h
    exact ⟨_, rfl, rfl, rfl⟩
  · cases h
    exact ⟨_, rfl, rfl, rfl⟩
  · cases h
    exact ⟨_, rfl, rfl, rfl⟩

/-- The token of a call that ended well finds the query that was put to rest. -/
theorem opened_settled {more : Bool} {t : Token} (h : r.plan.agrees errand.plan = true)
    (ht : (reportOf more r).token = some t) :
    ((d.settle more r).1.opened errand (some t)).toOption =
      if more then some r.rested else none := by
  cases more with
  | false => cases ht
  | true =>
    cases ht
    rw [opened_settle h]
    rfl

/-- A client while one of its calls is under way, which has noted so many dropped rows. -/
structure Serving (c : Client) (errand : Errand) (token : Option Token) (q : Query) (n : Nat)
    (d : Client) : Prop where
  opened : c.opened errand token = .ok q
  config : d.config = c.config
  suspended : d.suspended = (c.entered errand token q).suspended
  counted : CountsDrops c d n

namespace Serving
variable {n : Nat} {v : Visit} {noted : List Event} {s : Query} {request : FetchRequest}

theorem entered (h : c.opened errand token = .ok q) :
    Serving c errand token q 0 (c.entered errand token q) :=
  ⟨h, c.entered_config errand token q, rfl, c.entered_countsDrops errand token q⟩

theorem collect (h : Serving c errand token q n d) (s : Query) :
    Serving c errand token q (n + s.control.events.count .duplicateDropped) (d.collect s).1 :=
  ⟨h.opened, (d.config_collect s).trans h.config, (d.suspended_collect s).trans h.suspended,
    h.counted.trans (d.collect_countsDrops s)⟩

theorem settle (h : Serving c errand token q n d) (hr : r.label = q.label) {more : Bool}
    (hm : q.Meets (a.options.maxMemory.getD c.config.maxMemory) token.isNone a v noted
      (if more then some r.rested else none))
    (hv : v.result = .ok (reportOf more r))
    (hn : noted.count .duplicateDropped = n + r.control.events.count .duplicateDropped) :
    Turns c errand token a ((d.settle more r).1, v) := by
  refine .met ((d.settle_config r more).trans h.config) h.opened hm (fun t ht => ?_)
    (hn ▸ h.counted.trans (d.settle_countsDrops more r))
  rw [Visit.next, hv] at ht
  exact opened_settled ((congrArg (·.2.1.agrees errand.plan) hr).trans (opened_agrees h.opened)) ht

theorem settleError (h : Serving c errand token q n d) (hr : r.label = q.label) {e : QueryError}
    (hm : q.Meets (a.options.maxMemory.getD c.config.maxMemory) token.isNone a v noted
      (if token.isNone || !e.isRetryable then none else some r.quiet))
    (hv : v.result = .error e)
    (hn : noted.count .duplicateDropped = n + r.control.events.count .duplicateDropped) :
    Turns c errand token a ((d.settleError token.isNone r e).1, v) := by
  refine .met ((d.settleError_config r _ e).trans h.config) h.opened hm (fun t ht => ?_)
    (hn ▸ h.counted.trans (d.settleError_countsDrops _ r e))
  -- only the token of the call asks for what a failed call leaves
  rw [Visit.next, hv] at ht
  obtain rfl : token = some t := ht
  exact opened_settleError h.opened hr h.suspended rfl

/-- A call whose operators fail loses its query. -/
theorem fault (h : Serving c errand token q n d) (hr : r.label = q.label) {e : QueryError}
    (he : Fault e) (hm : q.Meets (a.options.maxMemory.getD c.config.maxMemory) token.isNone a v
      noted none)
    (hv : v.result = .error e)
    (hn : noted.count .duplicateDropped = n + r.control.events.count .duplicateDropped) :
    Turns c errand token a ((d.settleError token.isNone r e).1, v) := by
  refine h.settleError hr ?_ hv hn
  simpa [he.not_retryable] using hm

theorem finish (h : Serving c errand token q n d)
    (ha : (q.begun (a.options.maxMemory.getD c.config.maxMemory)).advance a.options.rowLimit =
      (.waiting request, r))
    (hi : r.issue request = .ok s) (hn : n = s.control.events.count .duplicateDropped) :
    Turns c errand token a
      (complete a (d, .waiting ⟨s.quiet, a.options, token.isNone, request⟩)) := by
  obtain ⟨hfresh, -⟩ := Query.advance_again rfl ha
  have hlabel : s.quiet.label = q.label := (Query.issue_label hi).trans
    (congrArg (·.2.label) ha ▸ Query.advance_label a.options.rowLimit _)
  cases hf : a.fate.error? with
  | some e =>
    obtain ⟨u, hu, hquiet, hnoted⟩ := d.finish_struck
      ⟨s.quiet, a.options, token.isNone, request⟩ hf
    replace hquiet : u.quiet = s.quiet := hquiet
    have hulabel : u.label = q.label := (congrArg Query.label hquiet).trans hlabel
    simp only [complete, hu, settleError_result]
    have hm : q.Meets _ token.isNone a _ _ _ := .struck ha hi hf
    rw [← hquiet] at hm
    refine h.settleError hulabel hm rfl ?_
    rw [hnoted, List.count_append, hn, Nat.add_comm]
    simp [Query.quiet]
  | none =>
    obtain ⟨batch, hb⟩ := Fate.exists_batch hf
    have hfinish : d.finish ⟨s.quiet, a.options, token.isNone, request⟩ a.fate =
        d.conclude token.isNone (s.quiet.deliver a.options.rowLimit batch) := by
      rw [hb]
      rfl
    have hdlabel := s.quiet.deliver_label a.options.rowLimit batch
    simp only [complete, hfinish]
    rcases hd : s.quiet.deliver a.options.rowLimit batch with ⟨request' | more | e, u⟩
    all_goals
      rw [hd] at hdlabel
      have hulabel : u.label = q.label := hdlabel.trans hlabel
      have hcount : (u.control.events ++ s.control.events).count .duplicateDropped =
          n + u.control.events.count .duplicateDropped := by
        rw [List.count_append, hn, Nat.add_comm]
    · exact (Query.deliver_spent (Query.issue_spent hfresh hi) request'
        (congrArg (·.1) hd)).elim
    · simp only [conclude, settle_result]
      exact h.settle hulabel (.served ha hi hb hd) rfl hcount
    · simp only [conclude, settleError_result]
      exact h.fault hulabel (Query.deliver_failed hd) (.spoiled ha hi hb hd) rfl hcount

end Serving

theorem attempt_turns (c : Client) (errand : Errand) (token : Option Token) (a : Attempt) :
    Turns c errand token a (c.attempt errand token a) := by
  unfold attempt
  rw [execute_eq]
  split
  · exact .refused rfl rfl
  · cases ho : c.opened errand token with
    | error e => exact .refused rfl rfl
    | ok q =>
      have hs := Serving.entered ho
      have hc := c.entered_config errand token q
      have hlabel := Query.advance_label a.options.rowLimit
        (q.begun (a.options.maxMemory.getD c.config.maxMemory))
      simp only [run_eq, hc]
      rcases ha : (q.begun (a.options.maxMemory.getD c.config.maxMemory)).advance
        a.options.rowLimit with ⟨request | more | e, r⟩
      all_goals
        rw [ha] at hlabel
        have hr : r.label = q.label := hlabel
      · obtain ⟨hfresh, -⟩ := Query.advance_again rfl ha
        obtain ⟨s, hi⟩ : ∃ s, r.issue request = .ok s := ⟨_, Query.issue_eq hfresh⟩
        simp only [follow, hi]
        exact (hs.collect s).finish ha hi (Nat.zero_add _)
      · simp only [follow, complete, settle_result]
        exact hs.settle hr (.idle ha) rfl (Nat.zero_add _).symm
      · simp only [follow, complete, settleError_result]
        exact hs.fault hr (Query.advance_failed ha) (.broken ha) rfl (Nat.zero_add _).symm

/-- What has been seen of some calls, each with the latest token, and where they have led. -/
inductive Underway (c : Client) (errand : Errand) : List Visit → Client → Option Token → Prop
  | start : Underway c errand [] c none
  | next {past : List Visit} {d : Client} {token : Option Token} {t : Token}
    (h : Underway c errand past d token) (a : Attempt)
    (ht : (d.attempt errand token a).2.next token = some t) :
    Underway c errand (past ++ [(d.attempt errand token a).2]) (d.attempt errand token a).1 (some t)

/-! What holds of the visits so far and of the query that is kept, if there is one, holds ever after
if each visit keeps it. -/

section
variable {I : List Visit → Option Query → Prop}
  (hrefused : ∀ {past options e left}, I past left → I (past ++ [⟨options, none, .error e⟩]) left)
  (hmeets : ∀ {past q limit fresh a v noted left}, I past (some q) →
    Query.Meets limit fresh a q v noted left → I (past ++ [v]) left)
include hrefused hmeets

theorem attempt_keeps (a : Attempt) {past : List Visit}
    (h : I past (c.opened errand token).toOption) :
    ∃ left, I (past ++ [(c.attempt errand token a).2]) left ∧
      ∀ t, (c.attempt errand token a).2.next token = some t →
        ((c.attempt errand token a).1.opened errand (some t)).toOption = left := by
  have ht := c.attempt_turns errand token a
  generalize c.attempt errand token a = x at ht
  cases ht with
  | @refused d e hc hs =>
    refine ⟨_, hrefused h, fun t ht => ?_⟩
    obtain rfl : token = some t := ht
    simp only [opened, resume, find?, hs]
  | met hc ho hm hl hn =>
    rw [ho] at h
    exact ⟨_, hmeets h hm, hl⟩

/-- At the end of a course. -/
theorem course_keeps (attempts : List Attempt) {past : List Visit}
    (h : I past (c.opened errand token).toOption) :
    ∃ left, I (past ++ c.course errand attempts token) left := by
  induction attempts generalizing c token past with
  | nil => exact ⟨_, by simpa [course] using h⟩
  | cons a rest ih =>
    obtain ⟨left, hleft, hopened⟩ := attempt_keeps hrefused hmeets a h
    rw [course]
    generalize c.attempt errand token a = x at hleft hopened
    obtain ⟨d, v⟩ := x
    cases hn : v.next token with
    | none => exact ⟨left, by simpa [hn] using hleft⟩
    | some t =>
      have := ih (hopened t hn ▸ hleft)
      simpa [hn] using this

/-- In the midst of one. -/
theorem Underway.keeps {past : List Visit} (hu : c.Underway errand past d token)
    (h : I [] (c.opened errand none).toOption) : I past (d.opened errand token).toOption := by
  induction hu with
  | start => exact h
  | @next past d token t hu a ht ih =>
    obtain ⟨left, hleft, hopened⟩ := attempt_keeps hrefused hmeets a ih
    rwa [hopened t ht]

end

theorem Underway.config {past : List Visit} (h : c.Underway errand past d token) :
    d.config = c.config := by
  induction h with
  | start => rfl
  | @next past d token t h a ht ih =>
    have hturns := d.attempt_turns errand token a
    generalize d.attempt errand token a = x at hturns
    cases hturns with
    | refused hc hs => exact hc.trans ih
    | met hc ho hm hl hn => exact hc.trans ih

end Client
end ShardQuery
