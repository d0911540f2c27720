import ShardQuery.Proofs.Operator.Confinement
import ShardQuery.Proofs.Session.Bindings
import ShardQuery.Proofs.Session.Custody

/-!
Defects that never come up. A query is only made of a plan that keeps the rules and with a value for
each variable, so all that its operators name is there, now and after whatever servers answer. What
is left to blame for a defect is the rows.
-/

namespace ShardQuery

/-! ## Queries -/

namespace Query
variable {q : Query} {rowLimit : Option Nat} {batch : Batch} {e : QueryError}

/-- All that the operators of a query name is there. -/
structure Fits (q : Query) : Prop where
  root : q.root.Fits q.plan.plan.scope
  control : q.control.Offers q.plan.plan.scope

theorem lasting_fits : Lasting Fits where
  new {id plan bindings externals config q} hb h := by
    obtain ⟨hv, root, hr, rfl⟩ := Client.ofPlan_eq h
    have hbuilds := plan.plan.ofStep_builds hv
    rw [hr] at hbuilds
    refine ⟨?_, List.length_replicate, Plan.bound_of_bind hv hb⟩
    generalize plan.plan.root.strays = l at hbuilds
    cases hbuilds with
    | made hroot => exact hroot
  stepped {q} h pending := by
    obtain ⟨-, hf, -⟩ := Operator.step_confined h.root q.control [] h.control
    exact ⟨hf.1, hf.2⟩
  received {q} h batch := by
    have hc : (q.control.recordBatch batch).Offers q.plan.plan.scope := h.control
    obtain ⟨-, hf, -⟩ := Operator.deliver_confined h.root batch _ [] hc
    exact ⟨hf.2.1, hf.2.2⟩
  untouched {q r} h hr := by
    refine ⟨?_, ?_, ?_⟩
    · rw [hr.root, hr.plan]
      exact h.root
    · rw [Control.size, hr.registers, hr.plan]
      exact h.control.1
    · rw [hr.externals, hr.plan]
      exact h.control.2

/-- The scan of a query is where it asks for a batch. -/
def Asks (q : Query) : Prop := ∃ d request, (q.root.leaf.step d).signal = .request request

/-- A query that waits for a batch is where it asks for it. -/
theorem asks_of_waiting {request : FetchRequest}
    (h : (q.advance rowLimit).1 = .waiting request) : (q.advance rowLimit).2.Asks := by
  obtain ⟨-, hr⟩ := advance_leaf (P := fun _ => True) (fun _ _ _ => trivial) rowLimit
    (q := q) trivial
  obtain ⟨d, hd⟩ := hr request h
  exact ⟨d, request, hd⟩

/-- What a call fails of whose operators find all that they name. -/
theorem Fits.advance_failed (h : q.Fits) (he : (q.advance rowLimit).1 = .failed e) : Lapse e := by
  induction hn : q.root.work using Nat.strongRecOn generalizing q with
  | ind n ih =>
    have hw := q.root.pull_work q.control
    obtain ⟨-, hlapse⟩ := Operator.pull_lapse h.root h.control
    rw [advance_eq] at he
    split at he
    · cases he
    · simp only at he
      split at he
      · rename_i hrow
        exact ih _ (hn ▸ hw.2 hrow) (lasting_fits.pulled h _) he rfl
      · cases he
      · rename_i e' hfail
        cases he
        exact hlapse e (by simp [Fallible.failure, hfail])
      · cases he
      · cases he

theorem Fits.deliver_failed (h : q.Fits) (ha : q.Asks)
    (hd : (q.deliver rowLimit batch).1 = .failed e) : Lapse e := by
  rw [deliver_eq] at hd
  split at hd
  · rename_i he
    cases hd
    obtain ⟨d, request, hstep⟩ := ha
    rw [(q.root.deliver_leaf _ batch).1] at he
    exact .inl (Scan.deliver_setback hstep _ batch e he)
  · exact (lasting_fits.received h batch).advance_failed hd

end Query

/-! ## Errors -/

/-- A defect that would be one of the program itself. -/
inductive InternalDefect : QueryError → Prop
  | heapEmptied : InternalDefect (.defect "merge heap emptied during a fetch")
  | entryMissing : InternalDefect Grouping.entryMissing
  | foldScalar : InternalDefect (.defect "aggregate_row on a non-aggregate iterator")
  | takeScalar : InternalDefect (.defect "take_aggregate on a non-aggregate iterator")
  | unbound (name : String) :
    InternalDefect (.defect s!"external variable {name} referenced before binding")
  | secondFetch : InternalDefect Control.secondFetch
  | vanished : InternalDefect Lease.vanished

/-- An error that is no defect, or one that the rows are to blame for. -/
structure Excusable (e : QueryError) : Prop where
  blamed : ∀ reason, e = .defect reason → DataDefect e
  not_internal : ¬ InternalDefect e

/-- The letter that the text of a defect begins with. -/
def QueryError.initial? : QueryError → Option Char
  | .defect reason => reason.toList.head?
  | _ => none

theorem DataDefect.not_internal {e : QueryError} (h : DataDefect e) : ¬ InternalDefect e := by
  intro hi
  have hd : e.initial? ∈ [some 'f', some 'g', some 'd'] := by
    cases h <;> simp [QueryError.initial?, toString]
  cases hi with
  | unbound name => simp [QueryError.initial?, toString] at hd
  | _ => exact absurd hd (by decide)

namespace Excusable
variable {e : QueryError}

theorem of_ne (h : ∀ reason, e ≠ .defect reason) : Excusable e :=
  ⟨fun reason he => (h reason he).elim, fun hi => by
    cases hi with
    | _ => exact h _ rfl⟩

theorem of_lapse (h : Lapse e) : Excusable e := by
  rcases h with h | h
  · refine .of_ne fun reason he => ?_
    cases h <;> cases he
  · exact ⟨fun _ _ => h, h.not_internal⟩

end Excusable

namespace Client
variable {c d : Client} {calls : List (Option Token × Call)} {record : List Happening}
  {config : Config} {P : Query → Prop}

/-- What is so of every new query and stays so whatever its operators do is always so. -/
theorem Chronicle.all (hP : Query.Lasting P) (h : Chronicle config c calls record) :
    c.All P ∧ ∀ p ∈ calls, P p.2.query := by
  induction h with
  | new => exact ⟨List.forall_mem_nil _, List.forall_mem_nil _⟩
  | @returns c d calls record errand options token result h hn he ih =>
    have hs := ih.1.execute hP errand.newId errand.plan errand.bindings options token
    rw [he] at hs
    exact ⟨hs, ih.2⟩
  | @waits c d calls record errand options token call h hn he ih =>
    have hs := ih.1.execute hP errand.newId errand.plan errand.bindings options token
    rw [he] at hs
    exact ⟨hs.1, List.forall_mem_cons.2 ⟨hs.2, ih.2⟩⟩
  | @finishes c before after record token call h fate ih =>
    have hq := ih.2 (token, call) (by simp)
    refine ⟨?_, fun p hp => ih.2 p (mem_middle hp)⟩
    cases fate with
    | replied reply => exact ih.1.answer hP hq reply
    | timedOut milliseconds => exact ih.1.settleError hP hq call.fresh _
  | @forsaken c before after record token call h ih =>
    exact ⟨ih.1.keep (ih.2 (token, call) (by simp)), fun p hp => ih.2 p (mem_middle hp)⟩
  | abandoned h token ih => exact ⟨ih.1.abandon token, ih.2⟩

/-- A call that is over without a fetch has an excuse if it failed, and one that waits can take in
what comes. -/
def Excused : CallState → Prop
  | .done result => ∀ e, result = .error e → Excusable e
  | .waiting call => call.query.Asks ∧ call.query.control.frame.Spent

theorem execute_excused (h : c.All Query.Fits) (errand : Errand) (options : CallOptions)
    (token : Option Token) :
    Excused (c.execute errand.newId errand.plan errand.bindings options token).2 := by
  rw [c.execute_eq errand]
  split
  · intro e he
    cases he
    exact .of_ne fun _ he => by cases he
  · split
    · rename_i e' ho
      intro e he
      cases he
      rcases opened_error ho with hs | ⟨reason, rfl⟩
      · exact .of_lapse (.inl hs)
      · exact .of_ne fun _ he => by cases he
    · rename_i q ho
      have hq := Query.lasting_fits.begun (h.opened Query.lasting_fits ho)
        (options.maxMemory.getD (c.entered errand token q).config.maxMemory)
      rw [run_eq]
      rcases ha : (q.begun (options.maxMemory.getD
        (c.entered errand token q).config.maxMemory)).advance options.rowLimit with
        ⟨request | more | e, r⟩
      · obtain ⟨hf, -⟩ := Query.advance_again rfl ha
        have hwaiting := Query.asks_of_waiting (congrArg (·.1) ha)
        rw [ha] at hwaiting
        rw [follow, Query.issue_eq hf]
        exact ⟨hwaiting, Query.issue_spent hf (Query.issue_eq hf)⟩
      · simp only [follow, settle_result]
        intro e he
        cases he
      · simp only [follow, settleError_result]
        intro e' he
        cases he
        exact .of_lapse (hq.advance_failed (congrArg (·.1) ha))

theorem Chronicle.asking (h : Chronicle config c calls record) :
    ∀ p ∈ calls, p.2.query.Asks ∧ p.2.query.control.frame.Spent := by
  induction h with
  | new => exact List.forall_mem_nil _
  | returns _ _ _ ih => exact ih
  | @waits c d calls record errand options token call h hn he ih =>
    have hs := execute_excused (h.all Query.lasting_fits).1 errand options token
    rw [he] at hs
    exact List.forall_mem_cons.2 ⟨hs, ih⟩
  | finishes _ _ ih | forsaken _ ih => exact fun p hp => ih p (mem_middle hp)
  | abandoned _ _ ih => exact ih

theorem finish_excused (c : Client) {call : Call} (hq : call.query.Fits) (ha : call.query.Asks)
    (hs : call.query.control.frame.Spent) (fate : Fate) {e : QueryError}
    (h : (c.finish call fate).2 = .error e) : Excusable e := by
  cases hf : fate.error? with
  | some e' =>
    obtain ⟨q, hfinish, -⟩ := c.finish_struck call hf
    rw [hfinish, settleError_result] at h
    cases h
    refine .of_ne fun reason he => ?_
    rcases fate with ⟨_ | _ | _⟩ | _ <;> cases hf <;> cases he
  | none =>
    obtain ⟨batch, rfl⟩ := Fate.exists_batch hf
    change (c.conclude call.fresh (call.query.deliver call.options.rowLimit batch)).2 = _ at h
    rcases hd : call.query.deliver call.options.rowLimit batch with ⟨request | more | e', r⟩
    · exact (Query.deliver_spent hs request (congrArg (·.1) hd)).elim
    · rw [hd, conclude, settle_result] at h
      cases h
    · rw [hd, conclude, settleError_result] at h
      cases h
      exact .of_lapse (hq.deliver_failed ha (congrArg (·.1) hd))

end Client

namespace Operator
variable {σ : Scope} {op : Operator}

/-- The group steps among the operators. -/
def groupings : Operator → List Grouping
  | .scan _ => []
  | .select _ input | .sort _ input => input.groupings
  | .group g input => g :: input.groupings

theorem Fits.reg_lt (h : op.Fits σ) : op.reg < σ.registers := by
  cases op with
  | scan s => exact h
  | select s input | group s input | sort s input => exact h.1.reg

theorem Fits.groupings (h : op.Fits σ) : ∀ g ∈ op.groupings, g.Fits σ := by
  induction op with
  | scan s => exact List.forall_mem_nil _
  | select s input ih | sort s input ih => exact ih h.2
  | group g input ih => exact List.forall_mem_cons.2 ⟨h.1, ih h.2⟩

end Operator

namespace Client
variable {c : Client} {calls : List (Option Token × Call)} {record : List Happening}
  {config : Config} {q : Query}

/-- What operators name is there, and what they have put away they find again. -/
structure Provided (q : Query) : Prop where
  fits : q.Fits
  reg : q.root.reg < q.control.registers.length
  /-- More registers behind those of the plan make no difference, and stay as they are. -/
  step (extra : List Value) : q.root.step (q.control.padded extra) =
    Carries.onControl (·.padded extra) (q.root.step q.control)
  deliver (extra : List Value) (batch : Batch) :
    q.root.deliver (q.control.padded extra) batch =
      Carries.onControl (·.padded extra) (q.root.deliver q.control batch)
  entries : ∀ g ∈ q.root.groupings, ∀ key ∈ g.order, ∃ e, g.find? key = some e ∧ e.key = key

/-- Internal defects are unreachable. Whatever plans and values callers send and servers answer, and
in whatever order calls begin and end: at every moment of every call all registers and variables
that the operators name are there, and each key that waits finds the group that it was queued for.
If a call fails, it is not for a defect of the program; and if it is for a defect at all, then
because of a row. -/
theorem Chronicle.defects_excusable (h : Chronicle config c calls record) :
    (∀ q, Moment c (calls.map (·.2)) q → Provided q) ∧
      (∀ newId plan bindings options token d e,
        c.execute newId plan bindings options token = (d, .done (.error e)) → Excusable e) ∧
      ∀ p ∈ calls, ∀ fate e, (c.finish p.2 fate).2 = .error e → Excusable e := by
  obtain ⟨hc, hw⟩ := h.all Query.lasting_fits
  refine ⟨fun q hm => ?_, fun newId plan bindings options token d e he => ?_,
    fun p hp fate e he => ?_⟩
  · have hq : q.Fits := hm.lasting Query.lasting_fits hc
      (List.forall_mem_map.2 hw)
    exact {
      fits := hq
      reg := hq.root.reg_lt.trans_eq hq.control.1.symm
      step := fun extra => (Operator.step_confined hq.root q.control extra hq.control).padded
      deliver := fun extra batch =>
        (Operator.deliver_confined hq.root batch q.control extra hq.control).padded
      entries := fun g hg key hk => (hq.root.groupings g hg).queued.find? hk }
  · have hs := execute_excused hc ⟨newId, plan, bindings⟩ options token
    rw [he] at hs
    exact hs e rfl
  · obtain ⟨ha, hs⟩ := h.asking p hp
    exact c.finish_excused (hw p hp) ha hs fate he

end Client

open TwoPages in
/-- The first call of a sort while it waits for its first page. -/
theorem Client.Chronicle.defects_excusable_twoPages :
    ∃ record, Chronicle site.client.config begun.1 [(none, waiting)] record ∧
      Provided (waiting.query.received { rows := [row 2, row 1], continuation := some [1] }) ∧
      ∀ fate e, (begun.1.finish waiting fate).2 = .error e → Excusable e := by
  have hb : begun = (begun.1, .waiting waiting) := by cbv
  have h : Chronicle site.client.config begun.1 [(none, waiting)]
      [.called none (site.client.admits errand {} none)] := .waits .new (by simp) hb
  obtain ⟨hmoments, -, hends⟩ := h.defects_excusable
  exact ⟨_, h, hmoments _ (.received (List.mem_cons_self ..) _),
    hends (none, waiting) (List.mem_cons_self ..)⟩

end ShardQuery
