import ShardQuery.Proofs.Session.Custody

/-!
Calls that are turned down: with a limit of no rows, or with a token that does not name a query as
it stands. Such a call is counted, and otherwise it is as if it had never been made.
-/

namespace ShardQuery

/-! ## What callers do and see -/

/-- What callers do with a client. The calls that wait are known by their places, the latest
first. -/
inductive Deed where
  | start (errand : Errand) (options : CallOptions) (token : Option Token)
  | finish (place : Nat) (fate : Fate)
  | forsake (place : Nat)
  | abandon (token : Token)

/-- What callers see of it. -/
inductive Sight where
  | waiting (request : FetchRequest)
  | returned (result : Except QueryError Outcome)
  | abandoned (found : Bool)
  | nothing

namespace Deed

/-- Does something with a client and the calls that wait. -/
def perform : Deed → Client × List Call → Sight × Client × List Call
  | .start errand options token, (c, calls) =>
    match c.execute errand.newId errand.plan errand.bindings options token with
    | (c, .done result) => (.returned result, c, calls)
    | (c, .waiting call) => (.waiting call.request, c, call :: calls)
  | .finish place fate, (c, calls) =>
    match calls[place]? with
    | none => (.nothing, c, calls)
    | some call =>
      let (c, result) := c.finish call fate
      (.returned result, c, calls.eraseIdx place)
  | .forsake place, (c, calls) =>
    match calls[place]? with
    | none => (.nothing, c, calls)
    | some call => (.nothing, c.forsake call, calls.eraseIdx place)
  | .abandon token, (c, calls) =>
    let (c, found) := c.abandon token
    (.abandoned found, c, calls)

/-- Does one thing after the other. -/
def performAll : List Deed → Client × List Call → List Sight × Client × List Call
  | [], x => ([], x)
  | deed :: rest, x =>
    let (sight, x) := deed.perform x
    let (sights, x) := performAll rest x
    (sight :: sights, x)

end Deed

/-! ## Clients that differ in what they counted and logged -/

namespace Client.Matches
variable {c d : Client}

theorem finish (h : Matches c d) (call : Call) (fate : Fate) :
    Matches (c.finish call fate).1 (d.finish call fate).1 ∧
      (c.finish call fate).2 = (d.finish call fate).2 := by
  cases fate with
  | replied reply => exact h.answer call reply
  | timedOut milliseconds => exact h.settleError ..

theorem abandon (h : Matches c d) (token : Token) :
    Matches (c.abandon token).1 (d.abandon token).1 ∧
      (c.abandon token).2 = (d.abandon token).2 := by
  have hf : c.find? token.query = d.find? token.query := by rw [find?, find?, h.suspended]
  unfold Client.abandon
  rw [hf]
  cases d.find? token.query with
  | none => exact ⟨h, rfl⟩
  | some q => exact ⟨((h.remove token.query).collect q.close).log .queryAbandoned, rfl⟩

/-- What they counted and logged shows in nothing that callers see. -/
theorem perform (h : Matches c d) (calls : List Call) (deed : Deed) :
    (deed.perform (c, calls)).1 = (deed.perform (d, calls)).1 ∧
      Matches (deed.perform (c, calls)).2.1 (deed.perform (d, calls)).2.1 ∧
      (deed.perform (c, calls)).2.2 = (deed.perform (d, calls)).2.2 := by
  cases deed with
  | start errand options token =>
    have he := h.execute errand.newId errand.plan errand.bindings options token
    simp only [Deed.perform]
    generalize c.execute errand.newId errand.plan errand.bindings options token = x at he
    generalize d.execute errand.newId errand.plan errand.bindings options token = y at he
    obtain ⟨c', state⟩ := x
    obtain ⟨d', _⟩ := y
    obtain ⟨hcd, rfl⟩ := he
    cases state with
    | done result => exact ⟨rfl, hcd, rfl⟩
    | waiting call => exact ⟨rfl, hcd, rfl⟩
  | finish place fate =>
    simp only [Deed.perform]
    cases calls[place]? with
    | none => exact ⟨rfl, h, rfl⟩
    | some call =>
      obtain ⟨hcd, hresult⟩ := h.finish call fate
      exact ⟨congrArg Sight.returned hresult, hcd, rfl⟩
  | forsake place =>
    simp only [Deed.perform]
    cases calls[place]? with
    | none => exact ⟨rfl, h, rfl⟩
    | some call => exact ⟨rfl, h.keep call.query, rfl⟩
  | abandon token =>
    obtain ⟨hcd, hfound⟩ := h.abandon token
    exact ⟨congrArg Sight.abandoned hfound, hcd, rfl⟩

theorem performAll (h : Matches c d) (calls : List Call) (deeds : List Deed) :
    (Deed.performAll deeds (c, calls)).1 = (Deed.performAll deeds (d, calls)).1 ∧
      Matches (Deed.performAll deeds (c, calls)).2.1 (Deed.performAll deeds (d, calls)).2.1 ∧
      (Deed.performAll deeds (c, calls)).2.2 = (Deed.performAll deeds (d, calls)).2.2 := by
  induction deeds generalizing c d calls with
  | nil => exact ⟨rfl, h, rfl⟩
  | cons deed rest ih =>
    obtain ⟨hsight, hcd, hcalls⟩ := h.perform calls deed
    simp only [Deed.performAll]
    generalize deed.perform (c, calls) = x at hsight hcd hcalls
    generalize deed.perform (d, calls) = y at hsight hcd hcalls
    obtain ⟨sight, c', calls'⟩ := x
    obtain ⟨_, d', _⟩ := y
    cases hsight
    cases hcalls
    obtain ⟨hsights, hrest⟩ := ih hcd calls'
    exact ⟨congrArg (sight :: ·) hsights, hrest⟩

end Client.Matches

/-! ## Improper calls -/

namespace Client
variable {c : Client} {errand : Errand} {options : CallOptions} {token : Option Token}

/-- A call that cannot be right, whatever its query has come to. -/
inductive Improper (c : Client) (plan : SharedPlan) : CallOptions → Option Token → Prop
  | noRows {options : CallOptions} {token : Option Token} (h : options.rowLimit = some 0) :
    Improper c plan options token
  | unknown {options : CallOptions} {t : Token} (h : c.find? t.query = none) :
    Improper c plan options (some t)
  | otherCall {options : CallOptions} {t : Token} {q : Query} (h : c.find? t.query = some q)
    (hs : q.sequence ≠ t.sequence) : Improper c plan options (some t)
  | otherPlan {options : CallOptions} {t : Token} {q : Query} (h : c.find? t.query = some q)
    (hp : q.plan.agrees plan = false) : Improper c plan options (some t)

/-- A token that does not name a query as it stands is found out, for one reason or another. -/
theorem resume_of_improper (plan : SharedPlan) {t : Token}
    (h : ∀ q, c.find? t.query = some q → q.sequence = t.sequence → q.plan.agrees plan = false) :
    ∃ reason, c.resume plan t = .error (.invalidContinuation reason) := by
  unfold resume
  cases hf : c.find? t.query with
  | none => exact ⟨_, rfl⟩
  | some q =>
    simp only [Lease.runtime_of]
    split
    · exact ⟨_, rfl⟩
    · rename_i hs
      simp only [bne_iff_ne, ne_eq, Decidable.not_not] at hs
      rw [h q hf hs]
      exact ⟨_, rfl⟩

theorem Improper.resume {plan : SharedPlan} (h : c.Improper plan options token)
    (hl : options.rowLimit ≠ some 0) : ∃ t reason, token = some t ∧
      c.resume plan t = .error (.invalidContinuation reason) := by
  cases h with
  | noRows h => exact absurd h hl
  | unknown h =>
    obtain ⟨reason, hr⟩ := resume_of_improper plan fun q hq _ => by
      rw [h] at hq
      cases hq
    exact ⟨_, reason, rfl, hr⟩
  | otherCall h hs =>
    obtain ⟨reason, hr⟩ := resume_of_improper plan fun q hq hseq => by
      rw [h] at hq
      cases hq
      exact absurd hseq hs
    exact ⟨_, reason, rfl, hr⟩
  | otherPlan h hp =>
    obtain ⟨reason, hr⟩ := resume_of_improper plan fun q hq _ => by
      rw [h] at hq
      cases hq
      exact hp
    exact ⟨_, reason, rfl, hr⟩

/-- An improper call is turned down. It sends no request, leaves the suspended queries and the log
as they were, and whatever callers do afterwards, with it and without it they see the same. -/
theorem refused_traceless (h : c.Improper errand.plan options token) :
    ∃ e, c.execute errand.newId errand.plan errand.bindings options token =
        ({ c with metrics := c.metrics.countCall }, .done (.error e)) ∧
      (options.rowLimit = some 0 → e = .invalidArgument "row limit must be positive") ∧
      (options.rowLimit ≠ some 0 → ∃ reason, e = .invalidContinuation reason) ∧
      ∀ calls deeds,
        (Deed.performAll (.start errand options token :: deeds) (c, calls)).1 =
          .returned (.error e) :: (Deed.performAll deeds (c, calls)).1 := by
  obtain ⟨e, he, hl, ht⟩ : ∃ e,
      c.execute errand.newId errand.plan errand.bindings options token =
        ({ c with metrics := c.metrics.countCall }, .done (.error e)) ∧
      (options.rowLimit = some 0 → e = .invalidArgument "row limit must be positive") ∧
      (options.rowLimit ≠ some 0 → ∃ reason, e = .invalidContinuation reason) := by
    by_cases hl : options.rowLimit = some 0
    · exact ⟨_, by simp only [execute, hl, ↓reduceIte], fun _ => rfl, fun h => (h hl).elim⟩
    · obtain ⟨t, reason, rfl, hr⟩ := h.resume hl
      have hr : Client.resume { c with metrics := c.metrics.countCall } errand.plan t =
        .error (.invalidContinuation reason) := hr
      exact ⟨_, by simp only [execute, hl, hr, ↓reduceIte], fun h => (hl h).elim,
        fun _ => ⟨reason, rfl⟩⟩
  refine ⟨e, he, hl, ht, fun calls deeds => ?_⟩
  have hm : Matches { c with metrics := c.metrics.countCall } c := ⟨rfl, rfl⟩
  simp only [Deed.performAll, Deed.perform, he]
  exact congrArg (Sight.returned (.error e) :: ·) (hm.performAll calls deeds).1

end Client

open TwoPages in
/-- A caller comes with the token of a call that is over, then with the one that it was given. -/
theorem Client.refused_traceless_twoPages :
    ∃ reason, (Deed.performAll [.start errand {} (some ⟨errand.newId, 0⟩),
        .start errand {} (some second)] (paused, [])).1 =
      [.returned (.error (.invalidContinuation reason)), .waiting again.request] := by
  have hseq : (paused.find? errand.newId).map (·.sequence) = some 1 := by cbv
  obtain ⟨q, hq, hs⟩ := Option.map_eq_some_iff.1 hseq
  have himproper : paused.Improper errand.plan {} (some ⟨errand.newId, 0⟩) :=
    .otherCall hq (by rw [hs]; exact Nat.one_ne_zero)
  obtain ⟨e, -, -, ht, hsights⟩ := paused.refused_traceless himproper
  obtain ⟨reason, rfl⟩ := ht (Option.some_ne_none 0).symm
  have hr : paused.execute errand.newId errand.plan errand.bindings {} (some second) =
    ((callAgain paused second).1, .waiting again) := by cbv
  refine ⟨reason, ?_⟩
  rw [hsights]
  simp only [Deed.performAll, Deed.perform, hr]

end ShardQuery
