import Mathlib.Tactic.Abel
import ShardQuery.Proofs.Session.Visits

/-!
What a query uses on the servers. A batch is charged when it comes, and with the first one the cost
of making the plan. It is charged twice over, to the query and to its next outcome, and the two sums
are kept in step by all that may happen to the calls in between.
-/

namespace ShardQuery

namespace Capacity

instance : Zero Capacity := ⟨zero⟩

instance : AddCommMonoid Capacity where
  add_assoc a b c := by
    change mk .. = mk ..
    simp only [mk.injEq]
    exact ⟨Nat.add_assoc .., Nat.add_assoc .., Nat.add_assoc ..⟩
  zero_add a := by
    change mk (0 + a.readUnits) (0 + a.readKb) (0 + a.writeUnits) = a
    simp only [Nat.zero_add]
  add_zero a := rfl
  add_comm a b := by
    change mk .. = mk ..
    simp only [mk.injEq]
    exact ⟨Nat.add_comm .., Nat.add_comm .., Nat.add_comm ..⟩
  nsmul := nsmulRec

instance : LE Capacity :=
  ⟨fun a b => a.readUnits ≤ b.readUnits ∧ a.readKb ≤ b.readKb ∧ a.writeUnits ≤ b.writeUnits⟩

theorem le_add (a b : Capacity) : a ≤ a + b :=
  ⟨Nat.le_add_right .., Nat.le_add_right .., Nat.le_add_right ..⟩

/-- What some batches used, with the cost of making the plan if there are any. -/
def charge (cost : Option Capacity) (batches : List Batch) : Capacity :=
  (batches.map (·.consumed)).sum + if batches.isEmpty then 0 else cost.getD 0

/-- One batch more. -/
theorem charge_concat (cost : Option Capacity) (batches : List Batch) (b : Batch) :
    charge cost (batches ++ [b]) =
      charge cost batches + (b.consumed + if batches.isEmpty then cost.getD 0 else 0) := by
  cases batches with
  | nil =>
    simp only [charge, List.nil_append, List.map_cons, List.map_nil, List.sum_cons, List.sum_nil,
      List.isEmpty_cons, List.isEmpty_nil, Bool.false_eq_true, ↓reduceIte]
    abel
  | cons a rest =>
    simp only [charge, List.cons_append, List.map_cons, List.map_append, List.map_nil,
      List.sum_cons, List.sum_append, List.sum_nil, List.isEmpty_cons, Bool.false_eq_true,
      ↓reduceIte]
    abel

end Capacity

namespace Control
variable {c d : Control} {cost : Option Capacity} {reported : Capacity} {batches : List Batch}

/-- What is counted: since the last outcome, altogether, and the cost that is not charged yet. -/
def spending (c : Control) : Capacity × Capacity × Option Capacity :=
  (c.callConsumed, c.totalConsumed, c.compileCost)

/-- The counts after some batches, of whose capacity some was reported. -/
structure Accounts (cost : Option Capacity) (reported : Capacity) (batches : List Batch)
    (c : Control) : Prop where
  reported : c.totalConsumed = reported + c.callConsumed
  charged : c.totalConsumed = .charge cost batches
  cost : c.compileCost = if batches.isEmpty then cost else none

namespace Accounts

theorem of_spending (h : Accounts cost reported batches c) (hs : d.spending = c.spending) :
    Accounts cost reported batches d := by
  simp only [spending, Prod.mk.injEq] at hs
  obtain ⟨hc, ht, hk⟩ := hs
  exact ⟨by rw [hc, ht, h.reported], ht.trans h.charged, hk.trans h.cost⟩

/-- The first batch finds the cost of the plan, and takes it away. -/
theorem recordBatch (h : Accounts cost reported batches c) (b : Batch) :
    Accounts cost reported (batches ++ [b]) (c.recordBatch b) := by
  refine ⟨?_, ?_, by simp [Control.recordBatch]⟩
  · change c.totalConsumed + _ = reported + (c.callConsumed + _)
    rw [h.reported]
    abel
  · have hk : c.compileCost.getD .zero = if batches.isEmpty then cost.getD 0 else 0 := by
      rw [h.cost]
      split <;> rfl
    change c.totalConsumed + (b.consumed + c.compileCost.getD .zero) = _
    rw [h.charged, hk, Capacity.charge_concat]

/-- An outcome reports what was counted since the last one. -/
theorem takeCallConsumed (h : Accounts cost reported batches c) :
    Accounts cost (reported + c.callConsumed) batches c.takeCallConsumed.2 where
  reported := h.reported.trans (add_zero _).symm
  charged := h.charged
  cost := h.cost

end Accounts
end Control

/-! ## Operators do not count -/

namespace Operator
variable {c : Control}

theorem step_spending (op : Operator) (hc : c.needsContinuation = false) :
    (op.step c).control.spending = c.spending := by
  have hb : c.bare.frame.Fresh := ⟨rfl, rfl⟩
  cases hf : c.fetchDone with
  | false =>
    have h := op.step_within (φ := c.frame) hb ⟨hf, hc⟩
    rw [c.within_frame] at h
    rw [h]
    rfl
  | true =>
    obtain ⟨h, -⟩ | ⟨h, -⟩ := op.step_spent (φ := c.frame) hb ⟨hf, hc⟩
    all_goals
      rw [c.within_frame] at h
      rw [h]
      rfl

theorem pull_spending (op : Operator) (hc : c.needsContinuation = false) :
    (op.pull c).control.spending = c.spending ∧
      ((op.pull c).signal = .row → (op.pull c).control.needsContinuation = false) := by
  obtain ⟨p, d, -, hd, hp, -⟩ := op.pull_leads (fun _ _ => .ok { rows := [] }) [] [] hc
  have hn : d.needsContinuation = false := (congrArg (·.2.1) hd).trans hc
  have hs : d.spending = c.spending := congrArg (·.2.2) hd
  rw [hp]
  refine ⟨(p.step_spending hn).trans hs, fun hr => ?_⟩
  rcases p.step_follows hn with ⟨-, ha, -⟩ | ⟨-, hdry, -⟩
  · exact (congrArg (·.2.1) ha).trans hn
  · rw [hdry] at hr
    cases hr

end Operator

namespace Query
variable {q r s : Query} {request : FetchRequest}

theorem advance_spending (rowLimit : Option Nat) (hc : q.control.needsContinuation = false) :
    (q.advance rowLimit).2.control.spending = q.control.spending := by
  induction h : q.root.work using Nat.strongRecOn generalizing q with
  | ind n ih =>
    obtain ⟨hs, hn⟩ := q.root.pull_spending hc
    have hw := q.root.pull_work q.control
    rw [advance_eq]
    split
    · rfl
    · simp only
      split
      · rename_i hr
        exact (ih _ (h ▸ hw.2 hr) (hn hr) rfl).trans hs
      all_goals exact hs

theorem deliver_spending (rowLimit : Option Nat) (hc : q.control.needsContinuation = false)
    (batch : Batch) :
    (q.deliver rowLimit batch).2.control.spending = (q.control.recordBatch batch).spending := by
  have h : (q.received batch).control.frame = _ :=
    (q.root.deliver_framed batch).frame_control (q.control.recordBatch batch)
  have hs : (q.received batch).control.spending = (q.control.recordBatch batch).spending :=
    congrArg (fun f : Frame => (f.callConsumed, f.totalConsumed, f.compileCost)) h
  rw [deliver_eq]
  split
  · exact hs
  · exact (advance_spending rowLimit ((congrArg (·.needsContinuation) h).trans hc)).trans hs

theorem issue_spending (hi : r.issue request = .ok s) :
    s.control.spending = r.control.spending := by
  rw [issue_ok hi]
  rfl

end Query

/-! ## Visits -/

namespace Visit

/-- The batch that the call got. -/
def batch? (v : Visit) : Option Batch := v.sent.bind (·.2.batch?)

/-- What the outcomes say was used. -/
def reported (visits : List Visit) : Capacity :=
  ((visits.filterMap (·.result.toOption)).map (·.consumed)).sum

/-- What the batches used, with the cost of making the plan. -/
def charged (cost : Option Capacity) (visits : List Visit) : Capacity :=
  .charge cost (visits.filterMap batch?)

theorem batches_concat (visits : List Visit) (v : Visit) :
    (visits ++ [v]).filterMap batch? = visits.filterMap batch? ++ v.batch?.toList := by
  rw [List.filterMap_append, List.filterMap_cons]
  cases v.batch? <;> rfl

theorem reported_append (visits others : List Visit) :
    reported (visits ++ others) = reported visits + reported others := by
  simp [reported]

end Visit

namespace Client
open Visit

/-- The outcomes so far agree with the batches, and so do the counts of the query that is kept. -/
structure Accounted (cost : Option Capacity) (past : List Visit) (left : Option Query) : Prop where
  outcomes : ∀ {before v after o}, past = before ++ v :: after → v.result = .ok o →
    o.total = reported (before ++ [v]) ∧ o.total = charged cost (before ++ [v])
  kept : ∀ {q}, left = some q → q.control.Accounts cost (reported past) (past.filterMap batch?)

namespace Accounted
variable {cost : Option Capacity} {past : List Visit} {left : Option Query} {v : Visit} {q : Query}

/-- A visit more. -/
theorem snoc (h : Accounted cost past left) {left' : Option Query}
    (hv : ∀ {o}, v.result = .ok o →
      o.total = reported (past ++ [v]) ∧ o.total = charged cost (past ++ [v]))
    (hk : ∀ {q}, left' = some q →
      q.control.Accounts cost (reported (past ++ [v])) ((past ++ [v]).filterMap batch?)) :
    Accounted cost (past ++ [v]) left' := by
  refine ⟨fun {before u after o} hs ho => ?_, hk⟩
  obtain ⟨rfl, rfl⟩ | ⟨rest, hr⟩ := split_concat hs
  · exact hv ho
  · exact h.outcomes hr ho

/-- A call that failed, of which no batch is seen. -/
theorem failed (h : Accounted cost past left) {left' : Option Query} {e : QueryError}
    (he : v.result = .error e)
    (hk : ∀ {q}, left' = some q → v.batch? = none ∧
      q.control.Accounts cost (reported past) (past.filterMap batch?)) :
    Accounted cost (past ++ [v]) left' := by
  refine h.snoc (by simp [he]) fun hq => ?_
  obtain ⟨hb, ha⟩ := hk hq
  rw [batches_concat, hb]
  simpa [reported, he, Except.toOption] using ha

/-- A call that ended well. -/
theorem reports (h : Accounted cost past left) {more : Bool} {r : Query}
    (hr : v.result = .ok (reportOf more r))
    (ha : r.control.Accounts cost (reported past) (past.filterMap batch? ++ v.batch?.toList)) :
    Accounted cost (past ++ [v]) (if more then some r.rested else none) := by
  rw [← batches_concat] at ha
  have hsum : reported (past ++ [v]) = reported past + r.control.callConsumed := by
    simp [reported, hr, Except.toOption, reportOf]
  refine h.snoc (fun ho => ?_) fun hq => ?_
  · obtain rfl := Except.ok.inj (hr.symm.trans ho)
    exact ⟨ha.reported.trans hsum.symm, ha.charged⟩
  · cases more with
    | false => cases hq
    | true =>
      cases hq
      exact hsum ▸ ha.takeCallConsumed.of_spending rfl

theorem meets {limit : Nat} {fresh : Bool} {a : Attempt} {noted : List Event}
    (h : Accounted cost past (some q)) (hm : q.Meets limit fresh a v noted left) :
    Accounted cost (past ++ [v]) left := by
  have hq : (q.begun limit).control.Accounts cost (reported past) (past.filterMap batch?) :=
    (h.kept rfl).of_spending rfl
  have hadvance := Query.advance_spending a.options.rowLimit
    (show (q.begun limit).control.needsContinuation = false from rfl)
  cases hm with
  | idle ha =>
    rw [ha] at hadvance
    refine h.reports rfl ?_
    simpa [batch?] using hq.of_spending hadvance
  | broken => exact h.failed rfl nofun
  | @served request r s t batch more ha hi hf hd =>
    rw [ha] at hadvance
    obtain ⟨hfresh, -⟩ := Query.advance_again rfl ha
    have hissue := (Query.issue_spending hi).trans hadvance
    have hdeliver := Query.deliver_spending a.options.rowLimit
      (Query.issue_spent hfresh hi).2 batch
    rw [hd] at hdeliver
    refine h.reports rfl ?_
    -- the batch is charged before the operators see it, and they charge nothing
    have hs : s.quiet.control.Accounts cost (reported past) (past.filterMap batch?) :=
      hq.of_spending hissue
    simpa [batch?, hf, Fate.batch?] using (hs.recordBatch batch).of_spending hdeliver
  | spoiled => exact h.failed rfl nofun
  | @struck request r s e ha hi hf =>
    rw [ha] at hadvance
    refine h.failed rfl fun hu => ⟨Fate.batch?_of_error hf, ?_⟩
    split at hu
    · cases hu
    · cases hu
      exact hq.of_spending ((Query.issue_spending hi).trans hadvance)

end Accounted

/-- The capacity that an outcome reports for its query is what all outcomes so far report each for
itself. It is also what all batches so far used, those between failures too, together with the cost
of making the plan once there is a batch. So it never goes down. -/
theorem course_capacity {c : Client} {errand : Errand} {attempts : List Attempt}
    {past after : List Visit} {v : Visit} {o : Outcome}
    (h : c.course errand attempts none = past ++ v :: after) (ho : v.result = .ok o) :
    o.total = reported (past ++ [v]) ∧
      o.total = charged errand.plan.plan.compileCost (past ++ [v]) ∧
      ∀ u ∈ past, ∀ p, u.result = .ok p → p.total ≤ o.total := by
  have hnew : Accounted errand.plan.plan.compileCost [] (c.opened errand none).toOption := by
    refine ⟨fun hs => by simp at hs, fun {q} hq => ?_⟩
    obtain ⟨externals, -, hp⟩ := opened_new (ok_of_toOption hq)
    obtain ⟨-, root, -, rfl⟩ := ofPlan_eq hp
    exact ⟨rfl, rfl, rfl⟩
  obtain ⟨left, hall⟩ := course_keeps (I := Accounted errand.plan.plan.compileCost)
    (fun h => h.failed rfl fun hq => ⟨rfl, h.kept hq⟩) (fun h => h.meets) attempts hnew
  rw [List.nil_append] at hall
  obtain ⟨hreported, hcharged⟩ := hall.outcomes h ho
  refine ⟨hreported, hcharged, fun u hu p hp => ?_⟩
  obtain ⟨before, rest, rfl⟩ := List.append_of_mem hu
  have hu : c.course errand attempts none = before ++ u :: (rest ++ v :: after) := by simpa using h
  have hsum : o.total = p.total + reported (rest ++ [v]) := by
    rw [hreported, (hall.outcomes hu hp).1, ← reported_append]
    simp
  exact hsum ▸ p.total.le_add _

end Client

namespace TwoPages

/-- A scan whose plan had its cost. The servers are busy at the second call, and the third one gets
the second page. -/
def costly : Errand :=
  { newId := default
    plan := ⟨0,
      { root := .receive 0 ⟨.allPartitions, [], []⟩
        registers := 1
        compileCost := some ⟨2, 0, 1⟩ }⟩ }

def billed : List Visit :=
  site.client.course costly
    ([.batch { rows := [row 1], continuation := some [1], consumed := ⟨3, 1, 0⟩ },
      .failed (.retryable "busy"),
      .batch { rows := [row 2], consumed := ⟨4, 1, 0⟩ }].map fun reply => ⟨{}, .replied reply⟩)
    none

theorem billed_outcomes :
    billed.map (fun v => v.result.toOption.map fun o => (o.consumed, o.total)) =
      [some (⟨5, 1, 1⟩, ⟨5, 1, 1⟩), none, some (⟨4, 1, 0⟩, ⟨9, 2, 1⟩)] := by
  cbv

end TwoPages

open TwoPages in
/-- The cost of the plan is in the first outcome, and once in the total of the last. -/
theorem Client.course_capacity_billed :
    ∃ past v o, billed = past ++ [v] ∧ v.result = .ok o ∧ o.total = ⟨9, 2, 1⟩ ∧
      o.total = Visit.reported (past ++ [v]) ∧
      o.total = Visit.charged (some ⟨2, 0, 1⟩) (past ++ [v]) := by
  obtain ⟨u, _, hu, -, hr⟩ := List.map_eq_cons_iff.1 billed_outcomes
  obtain ⟨w, _, rfl, -, hr⟩ := List.map_eq_cons_iff.1 hr
  obtain ⟨v, _, rfl, hv, hr⟩ := List.map_eq_cons_iff.1 hr
  obtain rfl := List.map_eq_nil_iff.1 hr
  obtain ⟨o, ho, hb⟩ := Option.map_eq_some_iff.1 hv
  have hv := ok_of_toOption ho
  have hs : site.client.course costly _ none = [u, w] ++ v :: [] := hu
  obtain ⟨hreported, hcharged, -⟩ := course_capacity hs hv
  exact ⟨[u, w], v, o, hu, hv, congrArg Prod.snd hb, hreported, hcharged⟩

end ShardQuery
